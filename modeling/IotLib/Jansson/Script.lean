/-
  What the encoder does with a tree: the list of its calls of the callback, the order of
  the members, and the places where it fails.

  `doDump` on a value in memory goes through the script of the tree the value denotes.
  A failure in a key is not seen: the script goes on after it.
-/
import IotLib.Jansson.Dump

namespace Jansson

/-! ## Scripts -/

/-- One step: a chunk that has to be written, the chunks of a key, which may be cut off
    (`closed` is false for a key that is not valid UTF-8), or a failure. -/
inductive Step where
  | write (chunk : Bytes)
  | key (chunks : List Bytes) (closed : Bool)
  | fail
deriving DecidableEq

variable {flags : DumpFlags}

section
variable {σ : Type} (dump : Callback σ)

/-- Write the chunks up to the first failure. -/
def runChunks : List Bytes → σ → Bool × σ
  | [], s => (true, s)
  | c :: cs, s =>
    match dump c s with
    | (r, s) => if r = 0 then runChunks cs s else (false, s)

def run : List Step → σ → Bool × σ
  | [], s => (true, s)
  | .write c :: steps, s =>
    match dump c s with
    | (r, s) => if r = 0 then run steps s else (false, s)
  | .key chunks _ :: steps, s => run steps (runChunks dump chunks s).2
  | .fail :: _, s => (false, s)

/-- The writer goes through the steps. -/
def Sim (w : Writer σ) (steps : List Step) : Prop :=
  ∀ s, (w s).2 = (run dump steps s).2 ∧ ((w s).1 = 0 ↔ (run dump steps s).1 = true)

variable {dump}

section
-- the equations of these definitions, which the lemmas below rewrite with
attribute [local simp] run
end

theorem run_append (xs ys : List Step) (s : σ) :
    run dump (xs ++ ys) s =
      if (run dump xs s).1 then run dump ys (run dump xs s).2 else (false, (run dump xs s).2) := by
  induction xs generalizing s with
  | nil => rfl
  | cons x xs ih =>
    cases x with
    | write c =>
      rw [List.cons_append, run, run]
      generalize dump c s = r
      obtain ⟨r, s'⟩ := r
      dsimp only
      by_cases hr : r = 0
      · simp only [if_pos hr]
        exact ih s'
      · simp only [if_neg hr]
        rfl
    | key chunks closed => exact ih _
    | fail => rfl

theorem sim_giveBack : Sim dump (giveBack 0) [] := fun _ => ⟨rfl, iff_of_true rfl rfl⟩

theorem sim_fail : Sim dump (giveBack (-1)) [.fail] := fun _ =>
  ⟨rfl, iff_of_false (by decide : (-1 : Int) ≠ 0) Bool.false_ne_true⟩

theorem sim_write (c : Bytes) : Sim dump (dump c) [.write c] := by
  intro s
  rw [run]
  generalize dump c s = r
  obtain ⟨r, s'⟩ := r
  dsimp only
  by_cases hr : r = 0
  · rw [if_pos hr]
    exact ⟨rfl, iff_of_true hr rfl⟩
  · rw [if_neg hr]
    exact ⟨rfl, iff_of_false hr Bool.false_ne_true⟩

theorem Sim.check {a b : Writer σ} {xs ys : List Step} (ha : Sim dump a xs) (hb : Sim dump b ys) :
    Sim dump (Writer.check a b) (xs ++ ys) := by
  intro s
  obtain ⟨h₁, h₂⟩ := ha s
  rw [run_append]
  unfold Writer.check
  generalize a s = r at h₁ h₂
  obtain ⟨r, s'⟩ := r
  dsimp only at h₁ h₂ ⊢
  subst h₁
  by_cases hr : r = 0
  · rw [if_pos hr, if_pos (h₂.1 hr)]
    exact hb _
  · rw [if_neg hr, if_neg (mt h₂.2 hr)]
    exact ⟨rfl, iff_of_false (by decide : (-1 : Int) ≠ 0) Bool.false_ne_true⟩

/-- A writer whose result is forgotten. -/
theorem sim_forget {w : Writer σ} {chunks : List Bytes} (closed : Bool)
    (h : ∀ s, (w s).2 = (runChunks dump chunks s).2) :
    Sim dump (Writer.forget w) [.key chunks closed] := fun s => ⟨h s, iff_of_true rfl rfl⟩

/-! ## The script of a string -/

/-- The chunks after the opening quote, and whether the closing one is among them. -/
def bodyChunks (flags : DumpFlags) : Nat → Bytes → List Bytes × Bool
  | 0, _ => ([], false)
  | n + 1, str =>
    match dumpRun flags str.length str with
    | none => ([], false)
    | some (run, next) =>
      let first := if run ≠ [] then [run] else []
      match next with
      | none => (first ++ [[0x22]], true)
      | some (codepoint, rest) =>
        let (chunks, closed) := bodyChunks flags n rest
        (first ++ escapeText codepoint :: chunks, closed)

def stringChunks (flags : DumpFlags) (str : Bytes) : List Bytes × Bool :=
  let (chunks, closed) := bodyChunks flags (str.length + 1) str
  ([0x22] :: chunks, closed)

/-- The chunks have to be written, and then the end is missing unless `closed`. -/
def chunkSteps (p : List Bytes × Bool) : List Step :=
  p.1.map .write ++ if p.2 then [] else [.fail]

theorem runChunks_eq_run (chunks : List Bytes) (s : σ) :
    runChunks dump chunks s = run dump (chunks.map .write) s := by
  induction chunks generalizing s with
  | nil => rfl
  | cons c chunks ih =>
    rw [List.map_cons, runChunks, run]
    generalize dump c s = r
    obtain ⟨r, s'⟩ := r
    dsimp only
    rw [ih]

/-- A failure after the last chunk changes nothing. -/
theorem run_chunkSteps (p : List Bytes × Bool) (s : σ) :
    (run dump (chunkSteps p) s).2 = (runChunks dump p.1 s).2 := by
  unfold chunkSteps
  rw [run_append, runChunks_eq_run]
  split_ifs <;> rfl

theorem dumpBody_sim (flags : DumpFlags) : ∀ (n : Nat) (str : Bytes),
    Sim dump (dumpBody dump flags n str) (chunkSteps (bodyChunks flags n str))
  | 0, _ => sim_fail
  | n + 1, str => by
    rw [dumpBody, bodyChunks]
    cases dumpRun flags str.length str with
    | none => exact sim_fail
    | some p =>
      obtain ⟨run, next⟩ := p
      dsimp only
      have hrun : Sim dump (if run ≠ [] then dump run else giveBack 0)
          ((if run ≠ [] then [run] else []).map .write) := by
        by_cases hr : run ≠ []
        · rw [if_pos hr, if_pos hr]
          exact sim_write run
        · rw [if_neg hr, if_neg hr]
          exact sim_giveBack
      cases next with
      | none =>
        have h := hrun.check (sim_write [0x22])
        simpa [chunkSteps] using h
      | some q =>
        obtain ⟨codepoint, rest⟩ := q
        have h := hrun.check ((sim_write (escapeText codepoint)).check (dumpBody_sim flags n rest))
        simpa [chunkSteps] using h

theorem dumpString_sim (flags : DumpFlags) (str : Bytes) :
    Sim dump (dumpString dump flags str) (chunkSteps (stringChunks flags str)) := by
  exact (sim_write [0x22]).check (dumpBody_sim flags (str.length + 1) str)

theorem dumpKey_sim (flags : DumpFlags) (str : Bytes) :
    Sim dump (Writer.forget (dumpString dump flags str))
      [.key (stringChunks flags str).1 (stringChunks flags str).2] := by
  refine sim_forget _ fun s => ?_
  rw [(dumpString_sim flags str s).1, run_chunkSteps]

/-! ## The script of a container -/

/-- The chunks of `dump_indent`. -/
def spaceChunks : Nat → Nat → List Bytes
  | 0, _ => []
  | n + 1, spaces =>
    if spaces = 0 then []
    else
      let cur := if spaces < 32 then spaces else 32
      List.replicate cur 0x20 :: spaceChunks n (spaces - cur)

def indentChunks (flags : DumpFlags) (depth : Nat) (space : Bool) : List Bytes :=
  if flags.indent.val > 0 then
    [0x0A] :: spaceChunks (depth * flags.indent.val) (depth * flags.indent.val)
  else if space && !flags.compact then [[0x20]]
  else []

def indentSteps (flags : DumpFlags) (depth : Nat) (space : Bool) : List Step :=
  (indentChunks flags depth space).map .write

def itemSteps (flags : DumpFlags) (depth : Nat) : List (List Step) → List Step
  | [] => []
  | [x] => x ++ indentSteps flags depth false
  | x :: xs =>
    x ++ ([.write [0x2C]] ++ (indentSteps flags (depth + 1) true ++ itemSteps flags depth xs))

def bracketSteps (flags : DumpFlags) (embed : Bool) (depth : Nat) (first last : UInt8)
    (items : List (List Step)) : List Step :=
  (if embed then [] else [.write [first]]) ++
    if items.isEmpty then if embed then [] else [.write [last]]
    else
      indentSteps flags (depth + 1) false ++
        (itemSteps flags depth items ++ if embed then [] else [.write [last]])

def memberSteps (flags : DumpFlags) (key : Bytes) (value : List Step) : List Step :=
  [.key (stringChunks flags key).1 (stringChunks flags key).2] ++
    ([.write (if flags.compact then ascii ":" else ascii ": ")] ++ value)

theorem dumpSpaces_sim : ∀ (n spaces : Nat),
    Sim dump (dumpSpaces dump n spaces) ((spaceChunks n spaces).map .write)
  | 0, _ => sim_giveBack
  | n + 1, spaces => by
    rw [dumpSpaces, spaceChunks]
    by_cases h : spaces = 0
    · rw [if_pos h, if_pos h]
      exact sim_giveBack
    · rw [if_neg h, if_neg h]
      exact (sim_write _).check (dumpSpaces_sim n _)

theorem dumpIndent_sim (flags : DumpFlags) (depth : Nat) (space : Bool) :
    Sim dump (dumpIndent dump flags depth space) (indentSteps flags depth space) := by
  unfold dumpIndent indentSteps indentChunks
  by_cases h : flags.indent.val > 0
  · rw [if_pos h, if_pos h]
    exact (sim_write _).check (dumpSpaces_sim _ _)
  rw [if_neg h, if_neg h]
  by_cases hs : (space && !flags.compact) = true
  · rw [if_pos hs, if_pos hs]
    exact sim_write _
  · rw [if_neg hs, if_neg hs]
    exact sim_giveBack

theorem dumpItems_sim {α : Type} {depth : Nat} {item : α → Writer σ} :
    ∀ {xs : List α} {items : List (List Step)},
      List.Forall₂ (fun x steps => Sim dump (item x) steps) xs items →
      Sim dump (dumpItems dump flags depth item xs) (itemSteps flags depth items)
  | [], _, .nil => sim_giveBack
  | [_], _, .cons hx .nil => hx.check (dumpIndent_sim flags depth false)
  | _ :: _ :: _, _, .cons hx (.cons hy hxs) =>
    hx.check ((sim_write _).check
      ((dumpIndent_sim flags (depth + 1) true).check (dumpItems_sim (.cons hy hxs))))

theorem dumpBracketed_sim {α : Type} {embed : Bool} {depth : Nat}
    {first last : UInt8} {item : α → Writer σ} {xs : List α} {items : List (List Step)}
    (h : List.Forall₂ (fun x steps => Sim dump (item x) steps) xs items) :
    Sim dump (dumpBracketed dump flags embed depth first last item xs)
      (bracketSteps flags embed depth first last items) := by
  have hopt : ∀ c : UInt8, Sim dump (if embed = true then giveBack 0 else dump [c])
      (if embed = true then [] else [.write [c]]) := by
    intro c
    cases embed with
    | true => exact sim_giveBack
    | false => exact sim_write _
  have hempty : xs.isEmpty = items.isEmpty := by
    cases h <;> rfl
  unfold dumpBracketed bracketSteps
  refine (hopt first).check ?_
  rw [hempty]
  by_cases he : items.isEmpty = true
  · rw [if_pos he, if_pos he]
    exact hopt last
  · rw [if_neg he, if_neg he]
    exact (dumpIndent_sim _ _ _).check ((dumpItems_sim h).check (hopt last))

end

/-! ## The script of a tree -/

section
variable {R : Type}

mutual

/-- The nesting of a tree. -/
def Json.nest : Json R → Nat
  | .object ms => nestMembers ms + 1
  | .array vs => nestElems vs + 1
  | _ => 1

def nestElems : List (Json R) → Nat
  | [] => 0
  | v :: vs => max v.nest (nestElems vs)

def nestMembers : List (Bytes × Json R) → Nat
  | [] => 0
  | (_, v) :: ms => max v.nest (nestMembers ms)

end

/-- The members in the order of their keys. -/
def byKeys (ms : List (Bytes × Json R)) : List (Bytes × Json R) :=
  (sortKeys (ms.map Prod.fst)).filterMap fun key => (objectGet key ms).map (key, ·)

mutual

/-- The tree in the order in which it is dumped. -/
def Json.order (sort : Bool) : Json R → Json R
  | .object ms => .object (if sort then byKeys (orderMembers sort ms) else orderMembers sort ms)
  | .array vs => .array (orderElems sort vs)
  | .string s => .string s
  | .integer i => .integer i
  | .real r => .real r
  | .true => .true
  | .false => .false
  | .null => .null

def orderElems (sort : Bool) : List (Json R) → List (Json R)
  | [] => []
  | v :: vs => v.order sort :: orderElems sort vs

def orderMembers (sort : Bool) : List (Bytes × Json R) → List (Bytes × Json R)
  | [] => []
  | (key, v) :: ms => (key, v.order sort) :: orderMembers sort ms

end

variable (dtostr : Nat → R → Option Bytes)

mutual

/-- The script of a tree, with the members in the order in which they are. -/
def script (flags : DumpFlags) (embed : Bool) (depth : Nat) : Json R → List Step
  | .object ms => bracketSteps flags embed depth 0x7B 0x7D (scriptMembers flags (depth + 1) ms)
  | .array vs => bracketSteps flags embed depth 0x5B 0x5D (scriptElems flags (depth + 1) vs)
  | .string s => chunkSteps (stringChunks flags s)
  | .integer i => [.write (integerText i)]
  | .real r =>
    match dtostr flags.precision r with
    | none => [.fail]
    | some text => [.write text]
  | .true => [.write (ascii "true")]
  | .false => [.write (ascii "false")]
  | .null => [.write (ascii "null")]

def scriptElems (flags : DumpFlags) (depth : Nat) : List (Json R) → List (List Step)
  | [] => []
  | v :: vs => script flags Bool.false depth v :: scriptElems flags depth vs

def scriptMembers (flags : DumpFlags) (depth : Nat) : List (Bytes × Json R) → List (List Step)
  | [] => []
  | (key, v) :: ms =>
    memberSteps flags key (script flags Bool.false depth v) :: scriptMembers flags depth ms

end

section
-- the equations of these definitions, which the lemmas below rewrite with
attribute [local simp] Json.order script
end

theorem orderElems_eq (sort : Bool) (vs : List (Json R)) :
    orderElems sort vs = vs.map (Json.order sort) := by
  induction vs with
  | nil => rfl
  | cons v vs ih => rw [orderElems, ih, List.map_cons]

theorem orderMembers_eq (sort : Bool) (ms : List (Bytes × Json R)) :
    orderMembers sort ms = ms.map fun m => (m.1, m.2.order sort) := by
  induction ms with
  | nil => rfl
  | cons m ms ih => rw [orderMembers, ih, List.map_cons]

theorem scriptElems_eq (flags : DumpFlags) (depth : Nat) (vs : List (Json R)) :
    scriptElems dtostr flags depth vs = vs.map (script dtostr flags false depth) := by
  induction vs with
  | nil => rfl
  | cons v vs ih => rw [scriptElems, ih, List.map_cons]

theorem scriptMembers_eq (flags : DumpFlags) (depth : Nat) (ms : List (Bytes × Json R)) :
    scriptMembers dtostr flags depth ms =
      ms.map fun m => memberSteps flags m.1 (script dtostr flags false depth m.2) := by
  induction ms with
  | nil => rfl
  | cons m ms ih => rw [scriptMembers, ih, List.map_cons]

theorem nest_mem_elems {v : Json R} {vs : List (Json R)} (h : v ∈ vs) : v.nest ≤ nestElems vs := by
  induction vs with
  | nil => cases h
  | cons w vs ih =>
    rw [nestElems]
    rcases List.mem_cons.1 h with rfl | h
    · exact Nat.le_max_left _ _
    · exact (ih h).trans (Nat.le_max_right _ _)

theorem nest_mem_members {m : Bytes × Json R} {ms : List (Bytes × Json R)} (h : m ∈ ms) :
    m.2.nest ≤ nestMembers ms := by
  induction ms with
  | nil => cases h
  | cons m' ms ih =>
    rw [nestMembers]
    rcases List.mem_cons.1 h with rfl | h
    · exact Nat.le_max_left _ _
    · exact (ih h).trans (Nat.le_max_right _ _)

variable {α β : Type}

theorem objectGet_map (f : α → β) (key : Bytes) (ms : List (Bytes × α)) :
    objectGet key (ms.map fun m => (m.1, f m.2)) = (objectGet key ms).map f := by
  induction ms with
  | nil => rfl
  | cons m ms ih =>
    rw [List.map_cons, objectGet, objectGet]
    split_ifs
    · rfl
    · exact ih

/-! ## Trees in memory -/

variable {heap : Heap R} {ms : List (Bytes × α)} {ns : List (Bytes × β)}

theorem SameKeys.keys {A : α → β → Prop}
    (h : SameKeys A ms ns) : ms.map Prod.fst = ns.map Prod.fst := by
  induction h with
  | nil => rfl
  | cons hm _ ih => rw [List.map_cons, List.map_cons, hm.1, ih]

theorem SameKeys.get {A : α → β → Prop}
    (h : SameKeys A ms ns) (key : Bytes) :
    Option.Rel A (objectGet key ms) (objectGet key ns) := by
  induction h with
  | nil => exact .none
  | @cons m n _ _ hm _ ih =>
    rw [objectGet, objectGet, hm.1]
    split_ifs
    · exact .some hm.2
    · exact ih

/-- The reading of a node. -/
theorem Reads.cases {n : Nat} {p : Ref} {v : Json R} (h : Reads heap (n + 1) p v) :
    (p = .true ∧ v = .true) ∨ (p = .false ∧ v = .false) ∨ (p = .null ∧ v = .null) ∨
    ∃ i, p = .node i ∧
      ((∃ s, heap[i]? = some (.string s) ∧ v = .string s) ∨
        (∃ k, heap[i]? = some (.integer k) ∧ v = .integer k) ∨
        (∃ r, heap[i]? = some (.real r) ∧ v = .real r) ∨
        (∃ refs vs, heap[i]? = some (.array refs) ∧ v = .array vs ∧
          List.Forall₂ (Reads heap n) refs vs) ∨
        (∃ ms vs, heap[i]? = some (.object ms) ∧ v = .object vs ∧ SameKeys (Reads heap n) ms vs)) := by
  cases p with
  | true => exact Or.inl ⟨rfl, h⟩
  | false => exact Or.inr (Or.inl ⟨rfl, h⟩)
  | null => exact Or.inr (Or.inr (Or.inl ⟨rfl, h⟩))
  | node i =>
    refine Or.inr (Or.inr (Or.inr ⟨i, rfl, ?_⟩))
    rw [Reads] at h
    cases hi : heap[i]? with
    | none =>
      rw [hi] at h
      exact h.elim
    | some node =>
      rw [hi] at h
      cases node with
      | string s => exact Or.inl ⟨s, rfl, h⟩
      | integer k => exact Or.inr (Or.inl ⟨k, rfl, h⟩)
      | real r => exact Or.inr (Or.inr (Or.inl ⟨r, rfl, h⟩))
      | array refs =>
        obtain ⟨vs, rfl, hvs⟩ := h
        exact Or.inr (Or.inr (Or.inr (Or.inl ⟨refs, vs, rfl, rfl, hvs⟩)))
      | object ms =>
        obtain ⟨vs, rfl, hvs⟩ := h
        exact Or.inr (Or.inr (Or.inr (Or.inr ⟨ms, vs, rfl, rfl, hvs⟩)))

/-- A reference denotes one tree. -/
theorem Reads.unique : ∀ {n m : Nat} {p : Ref} {v w : Json R}, Reads heap n p v →
    Reads heap m p w → v = w
  | 0, _, _, _, _, h, _ => h.elim
  | _ + 1, 0, _, _, _, _, h' => h'.elim
  | n + 1, m + 1, p, v, w, h, h' => by
    have ih : ∀ {p : Ref} {v w : Json R}, Reads heap n p v → Reads heap m p w → v = w :=
      Reads.unique
    rcases h.cases with ⟨rfl, rfl⟩ | ⟨rfl, rfl⟩ | ⟨rfl, rfl⟩ | ⟨i, rfl, hn⟩
    · exact h'.symm
    · exact h'.symm
    · exact h'.symm
    · rcases h'.cases with ⟨hp, -⟩ | ⟨hp, -⟩ | ⟨hp, -⟩ | ⟨j, hp, hn'⟩
      · cases hp
      · cases hp
      · cases hp
      obtain rfl := Ref.node.inj hp
      rcases hn with ⟨s, hi, rfl⟩ | ⟨k, hi, rfl⟩ | ⟨r, hi, rfl⟩ | ⟨refs, vs, hi, rfl, hvs⟩ |
        ⟨ms, vs, hi, rfl, hvs⟩ <;> rw [hi] at hn'
      · exact (show w = .string s by simpa using hn').symm
      · exact (show w = .integer k by simpa using hn').symm
      · exact (show w = .real r by simpa using hn').symm
      · obtain ⟨ws, rfl, hws⟩ : ∃ ws, w = .array ws ∧ List.Forall₂ (Reads heap m) refs ws := by
          simpa using hn'
        congr 1
        clear hi hn' hp h h'
        induction hvs generalizing ws with
        | nil =>
          cases hws
          rfl
        | cons hv _ ihl =>
          cases hws with
          | cons hw hws => rw [ih hv hw, ihl _ hws]
      · obtain ⟨ws, rfl, hws⟩ : ∃ ws, w = .object ws ∧ SameKeys (Reads heap m) ms ws := by
          simpa using hn'
        congr 1
        clear hi hn' hp h h'
        induction hvs generalizing ws with
        | nil =>
          cases hws
          rfl
        | cons hv _ ihl =>
          cases hws with
          | cons hw hws =>
            rw [ihl _ hws, Prod.ext (hv.1.symm.trans hw.1) (ih hv.2 hw.2)]

theorem forall₂_imp_mem {A B : α → β → Prop} {xs : List α} {ys : List β}
    (h : List.Forall₂ A xs ys) (himp : ∀ x, ∀ y ∈ ys, A x y → B x y) : List.Forall₂ B xs ys := by
  induction h with
  | nil => exact .nil
  | cons hx _ ih =>
    obtain ⟨hy, htail⟩ : (∀ x, A x _ → B x _) ∧ ∀ x, ∀ y ∈ _, A x y → B x y :=
      ⟨fun x => himp x _ (List.mem_cons_self ..), fun x y hy => himp x y (List.mem_cons_of_mem _ hy)⟩
    exact .cons (hy _ hx) (ih htail)

/-! ## The encoder on trees in memory -/

variable {σ : Type} {dump : Callback σ}

/-- The containers that are being dumped: they are in memory, and a tree that they
    denote is nested deeper than `d`. -/
structure Parents (heap : Heap R) (parents : List Ref) (d : Nat) : Prop where
  nodup : parents.Nodup
  mem : ∀ q ∈ parents, ∃ i < heap.length, q = .node i
  deep : ∀ q ∈ parents, ∀ m w, Reads heap m q w → d < w.nest

theorem Parents.length_le {parents : List Ref} {d : Nat} (h : Parents heap parents d) :
    parents.length ≤ heap.length := by
  have hsub : parents ⊆ (List.range heap.length).map .node := by
    intro q hq
    obtain ⟨i, hi, rfl⟩ := h.mem q hq
    exact List.mem_map.2 ⟨i, List.mem_range.2 hi, rfl⟩
  have := (h.nodup.subperm hsub).length_le
  rwa [List.length_map, List.length_range] at this

/-- No container comes again below itself. -/
theorem Parents.not_mem {parents : List Ref} {m : Nat} {p : Ref} {v : Json R}
    (h : Parents heap parents v.nest) (hv : Reads heap m p v) : p ∉ parents :=
  fun hp => Nat.lt_irrefl _ (h.deep p hp m v hv)

theorem Parents.cons {parents : List Ref} {m d i : Nat} {node : Node R} {v : Json R}
    (h : Parents heap parents v.nest) (hv : Reads heap m (.node i) v) (hi : heap[i]? = some node)
    (hd : d < v.nest) : Parents heap (.node i :: parents) d where
  nodup := List.nodup_cons.2 ⟨h.not_mem hv, h.nodup⟩
  mem := by
    intro q hq
    rcases List.mem_cons.1 hq with rfl | hq
    · exact ⟨i, (List.getElem?_eq_some_iff.1 hi).1, rfl⟩
    · exact h.mem q hq
  deep := by
    intro q hq m' w hw
    rcases List.mem_cons.1 hq with rfl | hq
    · rw [← hv.unique hw]
      exact hd
    · exact hd.trans (h.deep q hq m' w hw)

theorem forall₂_keys {P : Bytes × Option α → List Step → Prop}
    {f : Bytes × β → List Step} :
    ∀ (keys : List Bytes), (∀ key ∈ keys, ∃ x y, objectGet key ms = some x ∧
      objectGet key ns = some y ∧ P (key, some x) (f (key, y))) →
    List.Forall₂ P (keys.map fun key => (key, objectGet key ms))
      ((keys.filterMap fun key => (objectGet key ns).map (key, ·)).map f)
  | [], _ => .nil
  | key :: keys, h => by
    obtain ⟨⟨x, y, hx, hy, hP⟩, htail⟩ := List.forall_mem_cons.1 h
    rw [List.map_cons, List.filterMap_cons, hx, hy]
    exact .cons hP (forall₂_keys keys htail)

theorem dumpMember_sim {value : Ref → Writer σ} {key : Bytes} {p : Ref}
    {steps : List Step} (h : Sim dump (value p) steps) :
    Sim dump (dumpMember dump flags value (key, some p)) (memberSteps flags key steps) :=
  (dumpKey_sim flags key).check ((sim_write _).check h)

/-- The members of an object, in the order of the dump. -/
theorem dumpOrder_sim {value : Ref → Writer σ} {tree : Json R → List Step}
    {ms : List (Bytes × Ref)} {vs : List (Bytes × Json R)} (sort : Bool)
    (h : SameKeys (fun p v => Sim dump (value p) (tree v)) ms vs) :
    List.Forall₂ (fun m steps => Sim dump (dumpMember dump flags value m) steps)
      (dumpOrder sort ms)
      ((if sort then byKeys vs else vs).map fun m => memberSteps flags m.1 (tree m.2)) := by
  cases sort with
  | false =>
    rw [dumpOrder, if_neg Bool.false_ne_true, if_neg Bool.false_ne_true]
    refine List.forall₂_map_left_iff.2 (List.forall₂_map_right_iff.2 (h.imp ?_))
    rintro ⟨key, p⟩ ⟨_, v⟩ ⟨rfl, hv⟩
    exact dumpMember_sim hv
  | true =>
    rw [dumpOrder, if_pos rfl, if_pos rfl, byKeys, ← h.keys]
    refine forall₂_keys _ fun key hkey => ?_
    have hmem : key ∈ ms.map Prod.fst := List.mem_mergeSort.1 hkey
    have hget := h.get key
    cases hms : objectGet key ms with
    | none => exact absurd hmem (objectGet_eq_none_iff.1 hms)
    | some p =>
      rw [hms] at hget
      cases hvs : objectGet key vs with
      | none =>
        rw [hvs] at hget
        cases hget
      | some v =>
        rw [hvs] at hget
        cases hget with
        | some hv => exact ⟨p, v, rfl, rfl, dumpMember_sim hv⟩

/-- **`do_dump` goes through the script of the tree.** -/
theorem doDump_sim : ∀ (m : Nat) {n : Nat} {flags : DumpFlags} {depth : Nat} {parents : List Ref}
    {p : Ref} {v : Json R}, Reads heap m p v → Parents heap parents v.nest →
    heap.length < n + parents.length →
    Sim dump (doDump heap dtostr dump n flags depth parents p)
      (script dtostr { flags with embed := false } flags.embed depth (v.order flags.sortKeys))
  | 0, _, _, _, _, _, _, h, _, _ => h.elim
  | m + 1, 0, _, _, parents, _, _, _, hpar, hn => by
    have := hpar.length_le
    omega
  | m + 1, n + 1, flags, depth, parents, p, v, h, hpar, hn => by
    rcases h.cases with ⟨rfl, rfl⟩ | ⟨rfl, rfl⟩ | ⟨rfl, rfl⟩ | ⟨i, rfl, hnode⟩
    · exact sim_write _
    · exact sim_write _
    · exact sim_write _
    have hlen : heap.length < n + (Ref.node i :: parents).length := by
      rw [List.length_cons]
      omega
    -- below a container, the containers above it are still deeper
    have ih : ∀ {q : Ref} {w : Json R}, Reads heap m q w → w.nest < v.nest →
        (∃ node, heap[i]? = some node) →
        Sim dump (doDump heap dtostr dump n { flags with embed := false } (depth + 1)
            (.node i :: parents) q)
          (script dtostr { flags with embed := false } false (depth + 1)
            (w.order flags.sortKeys)) := by
      rintro q w hq hw ⟨node, hnode⟩
      exact doDump_sim m hq (hpar.cons h hnode hw) hlen
    rcases hnode with ⟨s, hi, rfl⟩ | ⟨k, hi, rfl⟩ | ⟨r, hi, rfl⟩ | ⟨refs, vs, hi, rfl, hvs⟩ |
      ⟨ms, vs, hi, rfl, hvs⟩ <;> rw [doDump] <;> simp only [hi]
    · exact dumpString_sim _ s
    · exact sim_write _
    · rw [Json.order, script]
      cases dtostr flags.precision r with
      | none => exact sim_fail
      | some text => exact sim_write text
    · rw [if_neg (hpar.not_mem h), Json.order, script, orderElems_eq, scriptElems_eq, List.map_map]
      refine dumpBracketed_sim (List.forall₂_map_right_iff.2 ?_)
      refine forall₂_imp_mem hvs fun q w hw hq => ih hq ?_ ⟨_, hi⟩
      exact Nat.lt_succ_of_le (nest_mem_elems hw)
    · rw [if_neg (hpar.not_mem h), Json.order, script, scriptMembers_eq]
      refine dumpBracketed_sim (dumpOrder_sim _ ?_)
      rw [orderMembers_eq]
      refine List.forall₂_map_right_iff.2 (forall₂_imp_mem hvs fun q w hw hq => ⟨hq.1, ?_⟩)
      exact ih hq.2 (Nat.lt_succ_of_le (nest_mem_members hw)) ⟨_, hi⟩

end

end Jansson
