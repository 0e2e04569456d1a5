/-
  What a template denotes, and that `do_patch` prints it.
-/
import IotLib.Xmldb.Patch

namespace Xmldb.Patch

/-! ## Templates -/

/-- Text, tags, arrays, and conditions with or without `$else`. -/
inductive Template where
  | done
  | text (bytes : Bytes) (next : Template)
  | tag (msg : Bytes) (next : Template)
  | array (start : Bytes) (body : Template) (stop : Bytes) (next : Template)
  | cond (start : Bytes) (yes : Template) (stop : Bytes) (next : Template)
  | condElse (start : Bytes) (yes : Template) (other : Bytes) (no : Template) (stop : Bytes)
      (next : Template)

/-- The bytes of a template, where `f` is what is written of a tag. -/
def Template.render (f : Bytes → Bytes) : Template → Bytes
  | done => []
  | text bytes next => bytes ++ next.render f
  | tag msg next => puttag (f msg) ++ next.render f
  | array start body stop next =>
    puttag (f start) ++ (body.render f ++ (puttag (f stop) ++ next.render f))
  | cond start yes stop next => puttag (f start) ++ (yes.render f ++ (puttag (f stop) ++ next.render f))
  | condElse start yes other no stop next =>
    puttag (f start) ++ (yes.render f ++ (puttag (f other) ++ (no.render f ++ (puttag (f stop) ++
      next.render f))))

/-- What a tag is to the blocks. -/
inductive Kind where
  | arrayStart | arrayEnd | if_ | else_ | fi | plain
deriving DecidableEq

def kind (msg : Bytes) : Kind :=
  if starts "$arraystart:" msg then .arrayStart
  else if starts "$arrayend" msg then .arrayEnd
  else if starts "$if" msg then .if_
  else if starts "$else" msg then .else_
  else if starts "$fi" msg then .fi
  else .plain

/-- A tag of this kind, short and without a closing brace. -/
def IsTag (k : Kind) (tag : Bytes) : Prop :=
  0x7D ∉ tag ∧ tag.length < 250 ∧ kind (tagMsg tag) = k

/-- The blocks are what their tags say, and there is no opening brace in the text. -/
def Template.Ok : Template → Prop
  | done => True
  | text bytes next => 0x7B ∉ bytes ∧ next.Ok
  | tag msg next => IsTag .plain msg ∧ next.Ok
  | array start body stop next => IsTag .arrayStart start ∧ body.Ok ∧ IsTag .arrayEnd stop ∧ next.Ok
  | cond start yes stop next => IsTag .if_ start ∧ yes.Ok ∧ IsTag .fi stop ∧ next.Ok
  | condElse start yes other no stop next =>
    IsTag .if_ start ∧ yes.Ok ∧ IsTag .else_ other ∧ no.Ok ∧ IsTag .fi stop ∧ next.Ok

/-! ## What they denote -/

/-- The node whose entries an array has; `NULL` stands for the root. -/
def Ctx.owner (ctx : Ctx) (path : Bytes) : Option Loc :=
  match (splitEntry path).1 with
  | none => some (ctx.current.getD [])
  | some [] => some []
  | some parent => ctx.findNode parent

/-- The parent and the entries of an array. -/
def Ctx.arrayEntries (ctx : Ctx) (path : Bytes) (owner : Option Loc) : List (Loc × ℤ) :=
  match owner with
  | none => []
  | some pnode =>
    (entries (ctx.children pnode) (splitEntry path).2).map fun e => (pnode ++ [e.2], e.1)

/-- A tag that is no part of a block: whether it is well formed, the state, and the current node. -/
def leaf (ctx : Ctx) (s : State) (tagmsg : Bytes) : Option (ℤ × State × Option Loc) :=
  if tagmsg.head? = some 0x24 then
    if starts "$var" tagmsg then
      (doVariables ctx s.vars (tagmsg.drop 4)).map fun r =>
        (if r.1 then 0 else -1, { s with vars := r.2 }, ctx.current)
    else some (0, s, ctx.current)
  else if tagmsg.head? = some 0x40 then
    some (0, s, if ctx.id = 0 then ctx.findNode (tagmsg.drop 1) else ctx.current)
  else (doMapping ctx s.vars tagmsg).map fun value => (0, s.put value, ctx.current)

/-- What a condition says: a variable on the right is the one that is named there. -/
def holds (ctx : Ctx) (vars : Vars) (tagmsg : Bytes) : Option Bool :=
  condition (evalClause ctx vars Clause.oprand) tagmsg

/-- What a template prints, and does to the variables, where it is read. A malformed assignment ends
    the block that it stands in. -/
def Template.denote : Template → Ctx → State → Option (ℤ × State)
  | done, _, s => some (0, s)
  | text bytes next, ctx, s => next.denote ctx (s.put bytes)
  | tag msg next, ctx, s =>
    (leaf ctx s (tagMsg msg)).bind fun r =>
      if r.1 < 0 then some (r.1, r.2.1) else next.denote { ctx with current := r.2.2 } r.2.1
  | array start body _ next, ctx, s =>
    let path := (tagMsg start).drop 12
    let ids := ctx.arrayEntries path (ctx.owner path)
    (ids.foldlM (fun s e =>
      (body.denote { ctx with current := some e.1, id := e.2, max := ids.length } s).map Prod.snd) s).bind
        fun s => next.denote ctx s
  | cond start yes _ next, ctx, s =>
    (holds ctx s.vars ((tagMsg start).drop 3)).bind fun res =>
      (if res then (yes.denote ctx s).map Prod.snd else some s).bind fun s => next.denote ctx s
  | condElse start yes _ no _ next, ctx, s =>
    (holds ctx s.vars ((tagMsg start).drop 3)).bind fun res =>
      (if res then (yes.denote ctx s).map Prod.snd else (no.denote ctx s).map Prod.snd).bind fun s =>
        next.denote ctx s

/-! ## Where the code goes wrong -/

/-- Where a template is read from: a file, a buffer, or the buffer of a block that was cut out. -/
inductive Source where
  | file | buffer | block
deriving DecidableEq

/-- What is read of a tag: those of a block were trimmed. -/
def Source.seen : Source → Bytes → Bytes
  | .block => tagMsg
  | _ => id

/-- No byte of a buffer is taken for its end. -/
def Source.Reads (src : Source) (bytes : Bytes) : Prop := src ≠ .file → 0xFF ∉ bytes

/-- The number of entries is used. -/
def UsesMax (tagmsg : Bytes) : Prop :=
  if starts "$var" tagmsg then 0x40 ∈ tagmsg.drop 5
  else (mappingPath tagmsg).head? = some 0x25 ∧
    0x40 ∈ ((mappingPath tagmsg).drop 1).dropWhile fun c => !isCalc c

/-- The path of an array that is looked for below the root, and that `do_array` does not find: one
    segment behind a slash, or one segment while the current node is `NULL`. -/
def Ctx.Rooted (ctx : Ctx) (path : Bytes) : Prop :=
  (splitEntry path).1 = some [] ∨ (splitEntry path).1 = none ∧ ctx.current = none

/-- A comparison that is made as it stands there: not with numbers, and not with another variable on
    the right. -/
def Clause.Plain (c : Clause) : Prop :=
  c.entry.head? ≠ some 0x25 ∧ (starts "var" c.oprand → charAt c.entry 3 = charAt c.oprand 3)

/-- All comparisons that are made are plain. -/
def PlainFrom (eval : Clause → Option (Option Bool)) : ℕ → Bytes → Prop
  | 0, _ => True
  | n + 1, ptr =>
    ptr = [] ∨ ∀ c ∈ readClause ptr, c.Plain ∧ ∀ res, eval c = some (some res) →
      (if starts "&&" c.rest then res = true else starts "||" c.rest = true ∧ res = false) →
      PlainFrom eval n (c.rest.drop 2)

def Ctx.PlainCond (ctx : Ctx) (vars : Vars) (tagmsg : Bytes) : Prop :=
  PlainFrom (evalClause ctx vars Clause.oprand) (tagmsg.length + 1)
    (xmldbEatwhite (xmldbReatwhite tagmsg))

/-- A property of every turn of a loop. -/
def Each {α : Type} (P : State → α → Prop) (f : State → α → Option State) : State → List α → Prop
  | _, [] => True
  | s, a :: as => P s a ∧ ∀ s' ∈ f s a, Each P f s' as

/-- What is read avoids what goes wrong: a byte that is taken for the end, the number of entries in a
    condition in an array (where it is `lost`), an array below the root that is not found, and a
    comparison that is not plain. -/
def Template.Avoids : Template → Source → Bool → Ctx → State → Prop
  | done, _, _, _, _ => True
  | text bytes next, src, lost, ctx, s => src.Reads bytes ∧ next.Avoids src lost ctx (s.put bytes)
  | tag msg next, src, lost, ctx, s =>
    src.Reads (src.seen msg) ∧ (lost = true → ctx.max ≠ 0 → ¬UsesMax (tagMsg msg)) ∧
      ∀ r ∈ leaf ctx s (tagMsg msg), 0 ≤ r.1 →
        next.Avoids src lost { ctx with current := r.2.2 } r.2.1
  | array start body stop next, src, lost, ctx, s =>
    let path := (tagMsg start).drop 12
    let ids := ctx.arrayEntries path (ctx.owner path)
    let turn (s : State) (e : Loc × ℤ) : Option State :=
      (body.denote { ctx with current := some e.1, id := e.2, max := ids.length } s).map Prod.snd
    src.Reads (src.seen start ++ (body.render src.seen ++ src.seen stop)) ∧
      (ctx.Rooted path → ids = []) ∧
      Each (fun s e => body.Avoids .block false
        { ctx with current := some e.1, id := e.2, max := ids.length } s) turn s ids ∧
      ∀ s' ∈ ids.foldlM turn s, next.Avoids src lost ctx s'
  | cond start yes stop next, src, lost, ctx, s =>
    src.Reads (src.seen start ++ (yes.render src.seen ++ src.seen stop)) ∧
      ctx.PlainCond s.vars ((tagMsg start).drop 3) ∧
      ∀ res ∈ holds ctx s.vars ((tagMsg start).drop 3),
        if res then yes.Avoids .block true ctx s ∧ ∀ r ∈ yes.denote ctx s, next.Avoids src lost ctx r.2
        else next.Avoids src lost ctx s
  | condElse start yes other no stop next, src, lost, ctx, s =>
    src.Reads (src.seen start ++ (yes.render src.seen ++ (src.seen other ++ (no.render src.seen ++
      src.seen stop)))) ∧
      ctx.PlainCond s.vars ((tagMsg start).drop 3) ∧
      ∀ res ∈ holds ctx s.vars ((tagMsg start).drop 3),
        if res then yes.Avoids .block true ctx s ∧ ∀ r ∈ yes.denote ctx s, next.Avoids src lost ctx r.2
        else no.Avoids .block true ctx s ∧ ∀ r ∈ no.denote ctx s, next.Avoids src lost ctx r.2

end Xmldb.Patch
