/-
  The pointers that the daemon keeps: what a step does to them, and when they stay live.

  A step keeps its pointers, or takes them along with the tree (`Effect`). It only accesses a node
  that is no longer there by way of a kept pointer that is not live.
-/
import IotLib.Lib.Run
import IotLib.Xmldb.Ephp

namespace Xmldb.Ephp

/-! ## Accesses -/

variable {frame : Frame}

section
variable {α β : Type} {s s' s'' : State}

/-- A pointer that is not live is kept; a stale node is accessed by way of a stale pointer. -/
def State.Holds (s : State) (stale : Bool) : Prop :=
  ∃ p ∈ s.pointers, ¬ p.Live s.tree ∧ (stale = true → p = .dangling true)

/-- A computation only accesses a freed node by way of a kept pointer. -/
def Blames (s : State) (x : Except Stop α) : Prop := ∀ stale, x = .error (.freed stale) → s.Holds stale

theorem Blames.ok (a : α) : Blames s (.ok a) := fun _ h => by cases h

theorem Blames.signal : Blames s (.error .signal : Except Stop α) := fun _ h => by cases h

variable {x : Except Stop α}

theorem Blames.bind {f : α → Except Stop β} (hx : Blames s x)
    (hf : ∀ a, x = .ok a → Blames s (f a)) : Blames s (x >>= f) := by
  cases x with
  | ok a => exact hf a rfl
  | error e =>
    intro stale h
    exact hx stale (congrArg Except.error (Except.error.inj h))

theorem Blames.map (hx : Blames s x) (f : α → β) : Blames s (x.map f) := by
  cases x with
  | ok a => exact .ok _
  | error e =>
    intro stale h
    exact hx stale (congrArg Except.error (Except.error.inj h))

theorem blames_access {p : NodePtr} {r : Option α} (hp : p ∈ s.pointers)
    (h : p.Live s.tree → r.isSome) : Blames s (access p r) := by
  intro stale heq
  cases r with
  | some a => cases heq
  | none =>
    refine ⟨p, hp, fun hlive => absurd (h hlive) Bool.false_ne_true, fun hstale => ?_⟩
    injection heq with heq
    injection heq with heq
    exact of_decide_eq_true (heq.trans hstale)

theorem access_eq_ok {p : NodePtr} {r : Option α} {a : α} (h : access p r = .ok a) : r = some a := by
  cases r with
  | some b => exact congrArg some (Except.ok.inj h)
  | none => cases h

theorem map_eq_ok {f : α → β} {b : β} (h : x.map f = .ok b) :
    ∃ a, x = .ok a ∧ f a = b := by
  cases x with
  | ok a => exact ⟨a, rfl, Except.ok.inj h⟩
  | error e => cases h

theorem anchor_mem (s : State) : s.anchor ∈ s.pointers := List.mem_cons_self

/-- A string is evaluated without an access to a freed node. -/
def BlamesEval (s : State) (x : Eval α) : Prop := ∀ vars, Blames s (x vars)

theorem BlamesEval.pure (a : α) : BlamesEval s (pure a) := fun _ => .ok _

theorem BlamesEval.lift (h : Blames s x) : BlamesEval s (liftM x) :=
  fun _ => h.bind fun _ _ => .ok _

theorem BlamesEval.bind {x : Eval α} {f : α → Eval β} (hx : BlamesEval s x)
    (hf : ∀ a, BlamesEval s (f a)) : BlamesEval s (x >>= f) :=
  fun vars => (hx vars).bind fun r _ => hf r.1 r.2

theorem blames_getVarValue (name : Bytes) : BlamesEval s (getVarValue name) := by
  intro vars
  unfold getVarValue
  split
  · exact .ok _
  · exact .ok _

theorem blames_queryNode (s : State) (node : Bytes) (js : Bool) :
    Blames s (queryNode s.tree s.anchor node js) := by
  refine Blames.bind ?_ fun _ _ => .ok _
  exact blames_access (anchor_mem s) fun h => getValueFrom_isSome h node

theorem blames_applyOp (op : UInt8) (final result : Bytes) : Blames s (applyOp op final result) := by
  unfold applyOp
  dsimp only
  split_ifs
  all_goals first | exact .ok _ | exact .signal

mutual

theorem blames_convertElem (s : State) :
    ∀ elem : StrElem, BlamesEval s (convertElem s.tree s.anchor elem)
  | .str str => .pure _
  | .var name => (blames_getVarValue name).bind fun _ => .pure _
  | .query js node => by
    rw [convertElem]
    refine (blames_convertLoop s 0 [] node).bind fun path => ?_
    exact (BlamesEval.lift (blames_queryNode s path js)).bind fun _ => .pure _

theorem blames_convertLoop (s : State) (op : UInt8) (final : Bytes) :
    ∀ head : StrList, BlamesEval s (convertLoop s.tree s.anchor op final head)
  | .nil => .pure _
  | .cons elem op' next => by
    rw [convertLoop]
    refine (blames_convertElem s elem).bind fun result => ?_
    refine (BlamesEval.lift (blames_applyOp op final result)).bind fun final' => ?_
    split_ifs
    · exact blames_convertLoop s op' final' next
    · exact .pure _

end

theorem blames_str (s : State) (head : StrList) : BlamesEval s (s.str head) :=
  blames_convertLoop s 0 [] head

theorem blames_checkCondition (s : State) (ret : Option Bool) (condition : List Cond) :
    BlamesEval s (checkCondition s.tree s.anchor ret condition) := by
  induction condition generalizing ret with
  | nil => exact .pure _
  | cons cptr next ih =>
    unfold checkCondition
    refine (blames_str s cptr.operand1).bind fun op1 => ?_
    refine (blames_str s cptr.operand2).bind fun op2 => ?_
    dsimp only
    split_ifs
    · exact .pure _
    · exact ih _

theorem blames_mapOutput (s : State) (value : Bytes) (default : Option StrList)
    (mptr : List (StrList × StrList)) :
    BlamesEval s (mapOutput s.tree s.anchor value default mptr) := by
  induction mptr with
  | nil =>
    unfold mapOutput
    cases default with
    | some output => exact blames_str s output
    | none => exact .pure _
  | cons m next ih =>
    unfold mapOutput
    refine (blames_str s m.1).bind fun patt => ?_
    split_ifs
    · exact blames_str s m.2
    · exact ih

theorem blames_formatLog (field : List Bytes) (format : Bytes) : Blames s (formatLog field format) := by
  fun_induction formatLog field format with
  | case1 => exact .ok _
  | case2 c => exact .ok _
  | case3 => rename_i ih; exact ih.map _
  | case4 => exact .signal
  | case5 => rename_i ih; exact ih.map _
  | case6 => rename_i ih; exact ih.map _

theorem blames_logLines (format : Bytes) (lines : List Bytes) : Blames s (logLines format lines) := by
  induction lines with
  | nil => exact .ok _
  | cons line next ih =>
    unfold logLines
    exact (blames_formatLog _ format).bind fun _ _ => ih.bind fun _ _ => .ok _

/-! ## Statements -/

/-- A step that keeps the nodes; its pointers are those from before, or were found in the tree. -/
structure Keeps (s s' : State) : Prop where
  tree : Grows s.tree s'.tree
  pointers : ∀ p ∈ s'.pointers, p.Live s'.tree ∨ p ∈ s.pointers
  running : s'.running = s.running
  stop : s'.stop = s.stop

theorem Keeps.trans (h : Keeps s s') (h' : Keeps s' s'') : Keeps s s'' := by
  refine ⟨h.tree.trans h'.tree, fun p hp => ?_, h'.running.trans h.running, h'.stop.trans h.stop⟩
  rcases h'.pointers p hp with hlive | hmem
  · exact .inl hlive
  · rcases h.pointers p hmem with hlive | hmem
    · exact .inl (hlive.mono h'.tree)
    · exact .inr hmem

/-- Nothing is different as far as nodes are concerned, but for pointers that are given up. -/
structure Fewer (s s' : State) : Prop where
  tree : s'.tree = s.tree
  pointers : s'.pointers ⊆ s.pointers
  running : s'.running = s.running
  stop : s'.stop = s.stop

theorem Fewer.of_eq (ht : s'.tree = s.tree) (hp : s'.pointers = s.pointers)
    (hr : s'.running = s.running) (hs : s'.stop = s.stop) : Fewer s s' :=
  ⟨ht, hp ▸ List.Subset.refl _, hr, hs⟩

theorem Fewer.trans (h : Fewer s s') (h' : Fewer s' s'') : Fewer s s'' :=
  ⟨h'.tree.trans h.tree, fun _ hp => h.pointers (h'.pointers hp), h'.running.trans h.running,
    h'.stop.trans h.stop⟩

theorem Fewer.keeps (h : Fewer s s') : Keeps s s' :=
  ⟨h.tree ▸ Grows.refl s.tree, fun _ hp => .inr (h.pointers hp), h.running, h.stop⟩

theorem Keeps.of_eq (ht : s'.tree = s.tree) (hp : s'.pointers = s.pointers)
    (hr : s'.running = s.running) (hs : s'.stop = s.stop) : Keeps s s' :=
  (Fewer.of_eq ht hp hr hs).keeps

theorem Keeps.refl (s : State) : Keeps s s := .of_eq rfl rfl rfl rfl

theorem keeps_putc (s : State) (c : UInt8) : Keeps s (s.putc c) := by
  unfold State.putc
  dsimp only
  split_ifs
  · exact .of_eq rfl rfl rfl rfl
  · exact .of_eq rfl rfl rfl rfl

theorem keeps_puts (s : State) (str : Bytes) : Keeps s (s.puts str) := by
  unfold State.puts
  induction str generalizing s with
  | nil => exact .refl s
  | cons c str ih => exact (keeps_putc s c).trans (ih (s.putc c))

/-- A frame without pointers of its own. -/
theorem pointers_push (s : State) (h : frame.pointers = []) :
    (s.push frame).pointers = s.pointers := by
  rw [State.pointers, State.push, List.flatMap_cons, h, List.nil_append]
  rfl

theorem fewer_push (h : frame.pointers = []) : Fewer s (s.push frame) :=
  .of_eq rfl (pointers_push s h) rfl rfl

theorem keeps_push (h : frame.pointers = []) : Keeps s (s.push frame) :=
  (fewer_push h).keeps

theorem fewer_pop {stack : List Frame} (h : s.stack = frame :: stack) :
    Fewer s { s with stack := stack } := by
  refine ⟨rfl, fun p hp => ?_, rfl, rfl⟩
  rcases List.mem_cons.1 hp with rfl | hp
  · exact anchor_mem s
  · refine List.mem_cons_of_mem _ ?_
    rw [h, List.flatMap_cons, List.mem_append]
    exact .inr hp

/-- A computation keeps the nodes, and blames a kept pointer if it stops at a freed node. -/
def Sound (s : State) (x : Except Stop State) : Prop := Blames s x ∧ ∀ s', x = .ok s' → Keeps s s'

theorem Sound.ok (h : Keeps s s') : Sound s (.ok s') :=
  ⟨.ok _, fun _ heq => Except.ok.inj heq ▸ h⟩

theorem Sound.bind {f : α → Except Stop State} (hx : Blames s x)
    (hf : ∀ a, x = .ok a → Sound s (f a)) : Sound s (x >>= f) := by
  refine ⟨hx.bind fun a ha => (hf a ha).1, fun s' h => ?_⟩
  cases x with
  | ok a => exact (hf a rfl).2 s' h
  | error e => cases h

theorem Sound.of_fewer {x : Except Stop State} (hx : Sound s' x) (h : Fewer s s') : Sound s x := by
  refine ⟨fun stale heq => ?_, fun s'' heq => h.keeps.trans (hx.2 s'' heq)⟩
  obtain ⟨p, hmem, hlive, hstale⟩ := hx.1 stale heq
  exact ⟨p, h.pointers hmem, h.tree ▸ hlive, hstale⟩

/-- The variables are not looked at. -/
theorem Sound.evalThen {x : Eval α} {f : α → State → Except Stop State} (hx : BlamesEval s x)
    (hf : ∀ a vars, Sound { s with vars := vars } (f a { s with vars := vars })) :
    Sound s (s.evalThen x f) :=
  Sound.bind (hx s.vars) fun r _ => (hf r.1 r.2).of_fewer (.of_eq rfl rfl rfl rfl)

theorem executeRequire_sound (env : Env) (file : StrList) (s : State) :
    Sound s (executeRequire env file s) := by
  refine .evalThen (blames_str s file) fun fname vars => ?_
  split
  · exact .ok (keeps_push rfl)
  · exact .ok (.of_eq rfl rfl rfl rfl)

theorem executeAnchor_sound (node : StrList) (s : State) : Sound s (executeAnchor node s) := by
  refine .evalThen (blames_str s node) fun node vars => ?_
  have hroot : ∀ root, root = (if node.head? = some 0x2F then .null else s.anchor) →
      root.Live s.tree ∨ root ∈ s.pointers := by
    rintro root rfl
    split_ifs
    · exact .inl trivial
    · exact .inr (anchor_mem s)
  dsimp only
  generalize (if node.head? = some 0x2F then .null else s.anchor) = root at hroot
  refine .bind ?_ fun r hr => .ok ?_
  · rcases hroot root rfl with hlive | hmem
    · obtain ⟨r, hr⟩ := Option.isSome_iff_exists.1 (findFrom_isSome hlive node false)
      rw [hr]
      exact .ok r
    · exact blames_access (s := { s with vars := vars }) hmem fun h => findFrom_isSome h node false
  · obtain ⟨-, hp⟩ := findFrom_found (access_eq_ok hr)
    have htree := findFrom_false (access_eq_ok hr)
    refine ⟨Grows.refl _, fun p hmem => ?_, rfl, rfl⟩
    rcases List.mem_cons.1 hmem with rfl | hmem
    · rcases hp with hlive | heq
      · exact .inl (htree ▸ hlive)
      · dsimp only at heq ⊢
        rw [heq]
        exact hroot root rfl
    · exact .inr (List.mem_cons_of_mem _ hmem)

theorem execQuery_sound (js : Bool) (node : StrList) (s : State) : Sound s (execQuery js node s) := by
  refine .evalThen (blames_str s node) fun node vars => ?_
  exact .bind (blames_queryNode _ node js) fun value _ => .ok (keeps_puts _ value)

theorem executeSet_sound (node value : StrList) (s : State) : Sound s (executeSet node value s) := by
  refine .evalThen (blames_str s node) fun node vars => ?_
  refine .evalThen (blames_str _ value) fun value vars => ?_
  refine .bind (blames_access (anchor_mem _) fun h => setValueFrom_isSome h node value) fun r hr => ?_
  exact .ok ⟨setValueFrom_grows (access_eq_ok hr), fun p hp => .inr hp, rfl, rfl⟩

theorem executeEcho_sound (string : StrList) (s : State) : Sound s (executeEcho string s) :=
  .evalThen (blames_str s string) fun str _ => .ok (keeps_puts _ str)

theorem keeps_setVar (s : State) (name value : Bytes) : Keeps s (s.setVar name value) :=
  .of_eq rfl rfl rfl rfl

theorem executeAssign_sound (name : Bytes) (op : AssignOp) (value : StrList) (s : State) :
    Sound s (executeAssign name op value s) := by
  refine .evalThen (blames_str s value) fun str vars => ?_
  refine .evalThen ?_ fun buf vars => .ok (keeps_setVar _ name buf)
  cases op with
  | assign => exact .pure _
  | add | sub | increase | decrease => exact (blames_getVarValue name).bind fun _ => .pure _

theorem executeMap_sound (node : StrList) (mptr : List (StrList × StrList)) (default : Option StrList)
    (s : State) : Sound s (executeMap node mptr default s) := by
  refine .evalThen (blames_str s node) fun node vars => ?_
  refine .bind (blames_queryNode _ node false) fun value _ => ?_
  exact .evalThen (blames_mapOutput _ value default mptr) fun output _ => .ok (keeps_puts _ output)

theorem executeInclog_sound (env : Env) (format file : Bytes) (s : State) :
    Sound s (executeInclog env format file s) := by
  unfold executeInclog
  split
  · rename_i lines _
    refine ⟨(blames_logLines format lines).map _, fun s' h => ?_⟩
    obtain ⟨text, -, rfl⟩ := map_eq_ok h
    exact keeps_puts s text
  · exact .ok (.refl s)

theorem executeIf_sound (condition : List Cond) (true_ false_ : List Stmt) (s : State) :
    Sound s (executeIf condition true_ false_ s) := by
  refine .evalThen (blames_checkCondition s none condition) fun ret vars => ?_
  rcases ret with _ | (_ | _)
  · exact .ok (.of_eq rfl rfl rfl rfl)
  · exact .ok (keeps_push rfl)
  · exact .ok (keeps_push rfl)

/-- The parent node was found in the tree, or is the anchor. -/
theorem forParent_cases (s : State) (path : Bytes) :
    Blames s (forParent s.tree s.anchor path) ∧
      ∀ pnode, forParent s.tree s.anchor path = .ok pnode → pnode.Live s.tree ∨ pnode ∈ s.pointers := by
  unfold forParent
  split_ifs
  · refine ⟨(blames_access (anchor_mem s) fun h => findFrom_isSome h _ false).map _, fun pnode h => ?_⟩
    obtain ⟨r, hr, rfl⟩ := map_eq_ok h
    have hfind := access_eq_ok hr
    rcases (findFrom_found hfind).2 with hlive | heq
    · exact .inl (findFrom_false hfind ▸ hlive)
    · exact .inr (heq ▸ anchor_mem s)
  · exact ⟨.ok _, fun pnode h => .inr (Except.ok.inj h ▸ anchor_mem s)⟩

theorem keeps_pushLoop {pnode oldAnchor : NodePtr} (hp : pnode.Live s.tree ∨ pnode ∈ s.pointers)
    (ha : oldAnchor.Live s.tree ∨ oldAnchor ∈ s.pointers) (entry : Bytes) (id : ℕ)
    (statement : List Stmt) (oldnum : Bytes) :
    Keeps s (s.push (.loop pnode entry id statement oldAnchor oldnum)) := by
  refine ⟨Grows.refl _, fun p hmem => ?_, rfl, rfl⟩
  rcases List.mem_cons.1 hmem with rfl | hmem
  · exact .inr (anchor_mem s)
  · rw [State.push, List.flatMap_cons, List.mem_append] at hmem
    rcases hmem with hmem | hmem
    · rcases List.mem_cons.1 hmem with rfl | hmem
      · exact hp
      · exact List.mem_singleton.1 hmem ▸ ha
    · exact .inr (List.mem_cons_of_mem _ hmem)

theorem executeFor_sound (node : StrList) (statement : List Stmt) (s : State) :
    Sound s (executeFor node statement s) := by
  refine .evalThen (blames_str s node) fun path vars => ?_
  obtain ⟨hblames, hp⟩ := forParent_cases { s with vars := vars } path
  refine .bind hblames fun pnode hpnode => ?_
  split_ifs
  · exact .ok (.refl _)
  · refine .evalThen (blames_getVarValue _) fun oldnum vars => .ok (keeps_pushLoop ?_ ?_ _ _ _ _)
    · exact hp pnode hpnode
    · exact .inr (anchor_mem s)

/-- The other statements than `del`. -/
theorem execute_sound (env : Env) {sbptr : Stmt} (h : ∀ node, sbptr ≠ .del node) (s : State) :
    Sound s (execute env sbptr s) := by
  cases sbptr with
  | require file => exact executeRequire_sound env file s
  | anchor node => exact executeAnchor_sound node s
  | query js node => exact execQuery_sound js node s
  | del node => exact absurd rfl (h node)
  | set node value => exact executeSet_sound node value s
  | echo string => exact executeEcho_sound string s
  | assign name op value => exact executeAssign_sound name op value s
  | map node mptr default => exact executeMap_sound node mptr default s
  | inclog format file => exact executeInclog_sound env format file s
  | cond condition true_ false_ => exact executeIf_sound condition true_ false_ s
  | for_ node statement => exact executeFor_sound node statement s
  | exit => exact .ok (.of_eq rfl rfl rfl rfl)

theorem loopTurn_sound {pnode oldAnchor : NodePtr} (h : Fewer s s') (hp : pnode ∈ s.pointers)
    (ha : oldAnchor ∈ s.pointers) (entry : Bytes) (id : ℕ) (statement : List Stmt) (oldnum : Bytes) :
    Sound s (loopTurn pnode entry id statement oldAnchor oldnum s') := by
  refine .bind (blames_access hp fun hlive => ?_) fun next hnext => ?_
  · rw [← h.tree] at hlive
    exact deref_isSome hlive _ _
  -- the sibling is a child of a node of the tree
  have hlive : next.Live s'.tree := by
    rcases deref_cases (access_eq_ok hnext) with ⟨-, rfl⟩ | ⟨loc, node, -, hnode, rfl⟩
    · trivial
    · cases hi : node.child.findIdx? (isSibling entry id) with
      | none => trivial
      | some i => exact at?_child hnode (List.findIdx?_eq_some_iff_getElem.1 hi).1
  have hsub : ∀ p ∈ s'.stack.flatMap Frame.pointers, p ∈ s.pointers := fun p hp =>
    h.pointers (List.mem_cons_of_mem _ hp)
  split_ifs
  · refine .ok ⟨h.tree ▸ Grows.refl _, fun p hmem => ?_, h.running, h.stop⟩
    rcases List.mem_cons.1 hmem with rfl | hmem
    · exact .inr ha
    · exact .inr (hsub p hmem)
  · refine .ok (Keeps.trans ?_ (keeps_push rfl))
    refine ⟨h.tree ▸ Grows.refl _, fun p hmem => ?_, h.running, h.stop⟩
    rcases List.mem_cons.1 hmem with rfl | hmem
    · exact .inl hlive
    · rw [State.push, List.flatMap_cons, List.mem_append] at hmem
      rcases hmem with hmem | hmem
      · rcases List.mem_cons.1 hmem with rfl | hmem
        · exact .inr hp
        · exact .inr (List.mem_singleton.1 hmem ▸ ha)
      · exact .inr (hsub p hmem)

end

/-! ## Steps -/

/-- Where the deletion of a script statement is. -/
def State.delOf (s : State) (node : StrList) : Option Loc :=
  match s.str node s.vars with
  | .ok r => (xmldbDelNode s.tree s.anchor r.1).bind Prod.snd
  | .error _ => none

/-- The node that a step deletes: `RGDB_DEL`, or `del` in a script. -/
def removedBy (s : State) : Event → Option Loc
  | .del path =>
    if s.running then none else (xmldbDelNode s.tree .null (path.map toLower)).bind Prod.snd
  | .tick _ =>
    match s.stack with
    | .block (.del node :: _) :: _ => if s.running = true ∧ s.ret = 0 then s.delOf node else none
    | _ => none
  | _ => none

/-- A step does not remove the node that a pointer points to. -/
def SparedBy (s : State) (event : Event) (p : NodePtr) : Prop :=
  match event with
  | .reload file skipProc => s.running = false → p.Remains s.tree file skipProc
  | event => ∀ removed ∈ removedBy s event, p.Spared removed

instance (s : State) : (event : Event) → (p : NodePtr) → Decidable (SparedBy s event p)
  | .reload _ _, _ => inferInstanceAs (Decidable (_ → _))
  | .set _ _, _ | .setNotify _ _, _ | .del _, _ | .ephp _ _, _ | .tick _, _ =>
    inferInstanceAs (Decidable (∀ removed ∈ removedBy s _, _))

/-- **A deletion or a reload does not remove a node that is pointed to**: not the one that the anchor,
    the anchor saved by a running `for` or its parent node points to, and none above these. -/
def Spares (s : State) (event : Event) : Prop := ∀ p ∈ s.pointers, SparedBy s event p

instance (s : State) (event : Event) : Decidable (Spares s event) :=
  inferInstanceAs (Decidable (∀ p ∈ s.pointers, _))

/-- The pointers are taken along. -/
structure Moves (s s' : State) (event : Event) (f : NodePtr → NodePtr) : Prop where
  pointers : s'.pointers = s.pointers.map f
  live : ∀ p : NodePtr, p.Live s.tree → SparedBy s event p → (f p).Live s'.tree
  lost : ∀ p, SparedBy s event p ∨ f p = .dangling false
  dangling : ∀ stale, ∃ stale', f (.dangling stale) = .dangling stale'
  stale : ∀ p, f p = .dangling true → p = .dangling true ∨ ∃ file vars, event = .ephp file vars

/-- What a step does to the pointers. -/
inductive Effect (s s' : State) (event : Event) : Prop where
  | keeps (ht : Grows s.tree s'.tree) (hp : ∀ p ∈ s'.pointers, p.Live s'.tree ∨ p ∈ s.pointers)
  | moves (f : NodePtr → NodePtr) (h : Moves s s' event f)

section
variable {s s' : State} {f : NodePtr → NodePtr} {event : Event}

theorem Keeps.effect (h : Keeps s s') : Effect s s' event := .keeps h.tree h.pointers

theorem pointers_mapPointers (s : State) (f : NodePtr → NodePtr) :
    (s.mapPointers f).pointers = s.pointers.map f := by
  have hframe : ∀ frame : Frame, (frame.mapPointers f).pointers = frame.pointers.map f := by
    intro frame
    cases frame with
    | file | block | loop => rfl
  rw [State.pointers, State.pointers, State.mapPointers, List.map_cons, List.map_flatMap,
    List.flatMap_map]
  simp only [hframe]

/-- A deletion. -/
theorem moves_without {root : NodePtr} {path : Bytes} {r : XmlNode × Option Loc} {removed : Loc}
    (h : xmldbDelNode s.tree root path = some r) (hr : r.2 = some removed)
    (hp : s'.pointers = s.pointers.map (NodePtr.without removed)) (ht : s'.tree = r.1)
    (hby : ∀ p, SparedBy s event p ↔ p.Spared removed) :
    Moves s s' event (NodePtr.without removed) where
  pointers := hp
  live p hlive hspared := ht ▸ (xmldbDelNode_spares h).2 removed hr p hlive ((hby p).1 hspared)
  lost p := (without_cases removed p).imp_left (hby p).2
  dangling stale := ⟨stale, rfl⟩
  stale p hp := by
    cases p with
    | null => cases hp
    | dangling stale => exact .inl hp
    | node loc =>
      rw [NodePtr.without] at hp
      cases hl : Loc.without removed loc with
      | none =>
        rw [hl] at hp
        cases hp
      | some l =>
        rw [hl] at hp
        cases hp

/-- `xmldb_del_node`, by a request or by a script. -/
theorem without_effect {root : NodePtr} {path : Bytes} {r : XmlNode × Option Loc}
    (h : xmldbDelNode s.tree root path = some r) (hs : Fewer s s') (hps : s'.pointers = s.pointers)
    (hby : ∀ removed, r.2 = some removed → ∀ p, SparedBy s event p ↔ p.Spared removed) :
    (s'.without r).stop = s.stop ∧ (s'.without r).running = s.running ∧
      Effect s (s'.without r) event := by
  obtain ⟨tree, loc⟩ := r
  cases loc with
  | none =>
    have htree : tree = s.tree := (xmldbDelNode_spares h).1 rfl
    refine ⟨hs.stop, hs.running, Keeps.effect ?_⟩
    exact .of_eq htree hps hs.running hs.stop
  | some removed =>
    refine ⟨hs.stop, hs.running, .moves _ (moves_without h rfl ?_ rfl (hby removed rfl))⟩
    rw [← hps]
    exact pointers_mapPointers s' (NodePtr.without removed)

theorem reloadPtr_moves (rootname : Bytes) {file : Option Bytes} {skipProc : Bool}
    (hs : s.running = false) (hp : s'.pointers = s.pointers.map (reloadPtr rootname s.tree file skipProc))
    (ht : s'.tree = (xmldbReadXml rootname s.tree file skipProc).1) :
    Moves s s' (.reload file skipProc) (reloadPtr rootname s.tree file skipProc) where
  pointers := hp
  live p hlive hspared := ht ▸ reloadPtr_live rootname hlive (hspared hs)
  lost p := (reloadPtr_cases rootname s.tree file skipProc p).imp_left fun h _ => h
  dangling stale := ⟨stale, rfl⟩
  stale p hp := by
    rcases p with _ | (_ | ⟨i, loc⟩) | stale
    · cases hp
    · cases hp
    · rw [reloadPtr] at hp
      split_ifs at hp
      cases hp
    · exact .inl hp

theorem aged_moves {file : Option (List Item)} {vars : Vars} (hp : s'.pointers = s.pointers.map NodePtr.aged)
    (ht : s'.tree = s.tree) : Moves s s' (.ephp file vars) NodePtr.aged where
  pointers := hp
  live p hlive _ := by
    cases p with
    | null => trivial
    | node loc => exact ht ▸ hlive
    | dangling stale => exact hlive.elim
  lost p := .inl fun _ h => by cases h
  dangling _ := ⟨true, rfl⟩
  stale _ _ := .inr ⟨file, vars, rfl⟩

/-- The deletion of a script statement. -/
theorem executeDel_effect {env : Env} {node : StrList} {shead : List Stmt} {stack : List Frame}
    (hs : s.stack = .block (.del node :: shead) :: stack) (hrun : s.running = true) (hret : s.ret = 0) :
    let s₁ := ({ s with stack := stack } : State).push (.block shead)
    Blames s (executeDel node s₁) ∧ ∀ s', executeDel node s₁ = .ok s' →
      s'.stop = s.stop ∧ s'.running = s.running ∧ Effect s s' (.tick env) := by
  intro s₁
  have hfewer : Fewer s s₁ := (fewer_pop hs).trans (fewer_push rfl)
  have hptrs : s₁.pointers = s.pointers := by
    rw [pointers_push _ rfl, State.pointers, State.pointers, hs]
    rfl
  have hblames : ∀ r : Bytes × Vars, Blames s (access s.anchor (xmldbDelNode s.tree s.anchor r.1)) :=
    fun r => blames_access (anchor_mem s) fun h => xmldbDelNode_isSome h r.1
  refine ⟨?_, fun s' h => ?_⟩
  · exact Blames.bind (blames_str s node s.vars) fun r _ => (hblames r).bind fun _ _ => .ok _
  · -- the path, and what is deleted there
    have hdel : s.delOf node = removedBy s (.tick env) := by
      rw [removedBy, hs]
      exact (if_pos ⟨hrun, hret⟩).symm
    unfold State.delOf at hdel
    change (s.str node s.vars >>= fun r => access s.anchor (xmldbDelNode s.tree s.anchor r.1) >>= fun r' =>
      .ok ({ s₁ with vars := r.2 }.without r')) = .ok s' at h
    cases hstr : s.str node s.vars with
    | error e =>
      rw [hstr] at h
      cases h
    | ok r =>
      rw [hstr] at h hdel
      obtain ⟨r', hr', h⟩ : ∃ r', xmldbDelNode s.tree s.anchor r.1 = some r' ∧
          { s₁ with vars := r.2 }.without r' = s' := by
        change (access s.anchor (xmldbDelNode s.tree s.anchor r.1) >>= fun r' =>
          .ok ({ s₁ with vars := r.2 }.without r')) = .ok s' at h
        cases hacc : access s.anchor (xmldbDelNode s.tree s.anchor r.1) with
        | error e =>
          rw [hacc] at h
          cases h
        | ok r' =>
          rw [hacc] at h
          exact ⟨r', access_eq_ok hacc, Except.ok.inj h⟩
      dsimp only at hdel
      rw [hr', Option.bind_some] at hdel
      have hfewer' : Fewer s { s₁ with vars := r.2 } := hfewer.trans (.of_eq rfl rfl rfl rfl)
      rw [← h]
      refine without_effect hr' hfewer' hptrs fun removed hremoved p => ?_
      show (∀ removed ∈ removedBy s (.tick env), p.Spared removed) ↔ _
      rw [← hdel, hremoved]
      exact ⟨fun h => h removed rfl, fun h _ hmem => Option.some.inj hmem ▸ h⟩

theorem Sound.effect {x : Except Stop State} (h : Sound s x) :
    Blames s x ∧ ∀ s', x = .ok s' → s'.stop = s.stop ∧ s'.running = s.running ∧ Effect s s' event :=
  ⟨h.1, fun s' heq => ⟨(h.2 s' heq).stop, (h.2 s' heq).running, (h.2 s' heq).effect⟩⟩

theorem frameStep_effect (env : Env) {stack : List Frame} (hs : s.stack = frame :: stack)
    (hrun : s.running = true) :
    let x := frameStep env { s with stack := stack } frame
    Blames s x ∧ ∀ s', x = .ok s' → s'.stop = s.stop ∧ s'.running = s.running ∧
      Effect s s' (.tick env) := by
  have hpop := fewer_pop hs
  have hpush : ∀ frame : Frame, frame.pointers = [] →
      Fewer s (({ s with stack := stack } : State).push frame) := fun _ h => hpop.trans (fewer_push h)
  cases frame with
  | loop pnode entry id statement oldAnchor oldnum =>
    have hmem : ∀ p ∈ [pnode, oldAnchor], p ∈ s.pointers := fun p hp => by
      refine List.mem_cons_of_mem _ ?_
      rw [hs, List.flatMap_cons, List.mem_append]
      exact .inl hp
    have hp := hmem pnode List.mem_cons_self
    have ha := hmem oldAnchor (List.mem_cons_of_mem _ List.mem_cons_self)
    unfold frameStep
    dsimp only
    split_ifs
    · refine Sound.effect (.ok (Fewer.keeps ⟨rfl, fun p hmem => ?_, rfl, rfl⟩))
      rcases List.mem_cons.1 hmem with rfl | hmem
      · exact ha
      · exact hpop.pointers (List.mem_cons_of_mem _ hmem)
    · exact (loopTurn_sound hpop hp ha entry id statement oldnum).effect
  | file items =>
    cases items with
    | nil => exact Sound.effect (.ok hpop.keeps)
    | cons item items =>
      unfold frameStep
      dsimp only
      split_ifs
      · exact Sound.effect (.ok hpop.keeps)
      · refine Sound.effect (Sound.of_fewer ?_ (hpush (.file items) rfl))
        cases item with
        | text text => exact .ok (keeps_puts _ text)
        | echoVar name =>
          exact .evalThen (blames_getVarValue name) fun value _ => .ok (keeps_puts _ value)
        | code shead => exact .ok (keeps_push rfl)
        | bad message => exact .ok ((keeps_puts _ message).trans (.of_eq rfl rfl rfl rfl))
  | block shead =>
    cases shead with
    | nil => exact Sound.effect (.ok hpop.keeps)
    | cons sbptr shead =>
      unfold frameStep
      dsimp only
      split_ifs with hret
      · exact Sound.effect (.ok hpop.keeps)
      · by_cases hdel : ∃ node, sbptr = .del node
        · obtain ⟨node, rfl⟩ := hdel
          exact executeDel_effect hs hrun (not_not.1 hret)
        · refine Sound.effect (Sound.of_fewer ?_ (hpush (.block shead) rfl))
          exact execute_sound env (fun node heq => hdel ⟨node, heq⟩) _

theorem finish_same (s : State) : s.finish.tree = s.tree ∧ s.finish.pointers = s.pointers ∧
    s.finish.stop = s.stop ∧ s.finish.vars = [] ∧ s.finish.buffer = [] ∧ s.finish.running = false := by
  unfold State.finish State.putc
  dsimp only
  split_ifs
  · exact ⟨rfl, rfl, rfl, rfl, rfl, rfl⟩
  · exact ⟨rfl, rfl, rfl, rfl, rfl, rfl⟩

theorem foldl_setVar (s : State) (vars : Vars) :
    ∃ vars', vars.foldl (fun s v => s.setVar v.1 v.2) s = { s with vars := vars' } := by
  induction vars generalizing s with
  | nil => exact ⟨s.vars, rfl⟩
  | cons v vars ih =>
    obtain ⟨vars', h⟩ := ih (s.setVar v.1 v.2)
    exact ⟨vars', h⟩

theorem tick_effect (env : Env) (hrun : s.running = true) :
    Blames s (tick env s) ∧ ∀ s', tick env s = .ok s' → s'.stop = s.stop ∧ Effect s s' (.tick env) := by
  unfold tick
  cases hs : s.stack with
  | nil =>
    obtain ⟨ht, hp, hstop, -⟩ := finish_same s
    refine ⟨.ok _, fun s' h => Except.ok.inj h ▸ ⟨hstop, ?_⟩⟩
    exact .keeps (ht ▸ Grows.refl _) fun p hmem => .inr (hp ▸ hmem)
  | cons frame stack =>
    obtain ⟨hblames, h⟩ := frameStep_effect env hs hrun
    exact ⟨hblames, fun s' heq => ⟨(h s' heq).1, (h s' heq).2.2⟩⟩

theorem start_same (s : State) (file : Option (List Item)) (vars : Vars) :
    (s.start file vars).pointers = s.pointers.map NodePtr.aged ∧ (s.start file vars).tree = s.tree ∧
      (s.start file vars).stop = s.stop ∧ (s.start file vars).running = true := by
  have haged := pointers_mapPointers s NodePtr.aged
  cases file with
  | none => exact ⟨haged, rfl, rfl, rfl⟩
  | some ephpfd =>
    unfold State.start
    dsimp only
    obtain ⟨vars', h⟩ := foldl_setVar (State.setVar { s.mapPointers NodePtr.aged with
      written := [], running := true, ret := 0 } (ascii "#") (ascii "0")) vars
    rw [h]
    exact ⟨haged, rfl, rfl, rfl⟩

theorem start_effect (s : State) (file : Option (List Item)) (vars : Vars) :
    (s.start file vars).stop = s.stop ∧ Effect s (s.start file vars) (.ephp file vars) := by
  obtain ⟨hptrs, htree, hstop, -⟩ := start_same s file vars
  exact ⟨hstop, .moves _ (aged_moves hptrs htree)⟩

theorem request_effect (rootname : Bytes) (event : Event) (hrun : s.running = false) :
    Blames s (request rootname s event) ∧
      ∀ s', request rootname s event = .ok s' → s'.stop = s.stop ∧ Effect s s' event := by
  have hroot : NodePtr.Live s.tree .null := trivial
  cases event with
  | set path value =>
    have hsome := setValueFrom_isSome hroot (path.map toLower) value
    obtain ⟨r, hr⟩ := Option.isSome_iff_exists.1 hsome
    rw [request, hr]
    refine ⟨.ok _, fun s' h => Except.ok.inj h ▸ ⟨rfl, ?_⟩⟩
    exact .keeps (setValueFrom_grows hr) fun p hp => .inr hp
  | setNotify path message =>
    have hsome := setNotifyFrom_isSome hroot (path.map toLower) message
    obtain ⟨tree, htree⟩ := Option.isSome_iff_exists.1 hsome
    rw [request, htree]
    refine ⟨.ok _, fun s' h => Except.ok.inj h ▸ ⟨rfl, ?_⟩⟩
    exact .keeps (setNotifyFrom_grows htree) fun p hp => .inr hp
  | del path =>
    have hsome := xmldbDelNode_isSome hroot (path.map toLower)
    obtain ⟨r, hr⟩ := Option.isSome_iff_exists.1 hsome
    rw [request, hr]
    refine ⟨.ok _, fun s' h => Except.ok.inj h ▸ ?_⟩
    have hby : ∀ removed, r.2 = some removed → ∀ p, SparedBy s (.del path) p ↔ p.Spared removed := by
      intro removed hremoved p
      show (∀ removed ∈ removedBy s (.del path), p.Spared removed) ↔ _
      rw [removedBy, if_neg (by rw [hrun]; exact Bool.false_ne_true), hr, Option.bind_some, hremoved]
      exact ⟨fun h => h removed rfl, fun h _ hmem => Option.some.inj hmem ▸ h⟩
    obtain ⟨hstop, -, heffect⟩ := without_effect hr (Fewer.of_eq rfl rfl rfl rfl) rfl hby
    exact ⟨hstop, heffect⟩
  | reload file skipProc =>
    refine ⟨.ok _, fun s' h => Except.ok.inj h ▸ ⟨rfl, .moves _ (reloadPtr_moves rootname hrun ?_ rfl)⟩⟩
    exact pointers_mapPointers s (reloadPtr rootname s.tree file skipProc)
  | ephp file vars =>
    exact ⟨.ok _, fun s' h => Except.ok.inj h ▸ start_effect s file vars⟩
  | tick env =>
    exact ⟨.ok _, fun s' h => Except.ok.inj h ▸ ⟨rfl, .keeps (Grows.refl _) fun p hp => .inr hp⟩⟩

theorem serve_effect (rootname : Bytes) (s : State) (event : Event) :
    Blames s (serve rootname s event) ∧
      ∀ s', serve rootname s event = .ok s' → s'.stop = s.stop ∧ Effect s s' event := by
  unfold serve
  cases hrun : s.running with
  | false => exact request_effect rootname event hrun
  | true =>
    cases event with
    | tick env => exact tick_effect env hrun
    | set | setNotify | del | reload | ephp =>
      refine ⟨.ok s, fun s' h => ?_⟩
      exact Except.ok.inj h ▸ ⟨rfl, .keeps (Grows.refl _) fun p hp => .inr hp⟩

/-- **A step of the daemon**: it stops for a pointer that is not live, or does one of these things to
    its pointers. -/
theorem step_effect (rootname : Bytes) (hstop : s.stop = none) (event : Event) :
    (∃ stop, step rootname s event = { s with stop := some stop } ∧
      ∀ stale, stop = .freed stale → s.Holds stale) ∨
    ((step rootname s event).stop = none ∧ Effect s (step rootname s event) event) := by
  obtain ⟨hblames, hok⟩ := serve_effect rootname s event
  unfold step
  rw [if_neg fun h => h hstop]
  cases hx : serve rootname s event with
  | ok s' =>
    obtain ⟨h, heffect⟩ := hok s' hx
    exact .inr ⟨h.trans hstop, heffect⟩
  | error stop => exact .inl ⟨stop, rfl, fun stale h => hblames stale (hx.trans (congrArg _ h))⟩

/-! ## Runs -/

/-- The kept pointers are live, and no freed node has been accessed. -/
structure State.Live (s : State) : Prop where
  pointers : ∀ p ∈ s.pointers, p.Live s.tree
  stop : ∀ stale, s.stop ≠ some (.freed stale)

theorem live_init (tree : XmlNode) : (init tree).Live where
  pointers p hp := by
    obtain rfl := List.mem_singleton.1 hp
    trivial
  stop _ h := by cases h

theorem live_step {rootname : Bytes} (h : Spares s event) (hs : s.Live) :
    (step rootname s event).Live := by
  cases hstop : s.stop with
  | some stop =>
    have hstep : step rootname s event = s := if_pos (by rw [hstop]; exact Option.some_ne_none _)
    rw [hstep]
    exact hs
  | none =>
    rcases step_effect rootname hstop event with ⟨stop, heq, hholds⟩ | ⟨hnone, heffect⟩
    · rw [heq]
      refine ⟨hs.pointers, fun stale hfreed => ?_⟩
      obtain ⟨p, hp, hlive, -⟩ := hholds stale (Option.some.inj hfreed)
      exact hlive (hs.pointers p hp)
    · refine ⟨fun p hp => ?_, fun stale h => by rw [hnone] at h; cases h⟩
      cases heffect with
      | keeps ht hptrs =>
        rcases hptrs p hp with hlive | hmem
        · exact hlive
        · exact (hs.pointers p hmem).mono ht
      | moves f hmoves =>
        rw [hmoves.pointers] at hp
        obtain ⟨q, hq, rfl⟩ := List.mem_map.1 hp
        exact hmoves.live q (hs.pointers q hq) (h q hq)

end

/-- **The pointers stay live**: in a run in which no deletion and no reload removes a node that the
    anchor, a saved anchor or the parent node of a running `for` points into, these are `NULL` or
    nodes of the tree at any time, and no freed node is accessed. -/
theorem pointers_live (rootname : Bytes) (tree : XmlNode) (events : List Event)
    (h : Run.Admits (step rootname) Spares (init tree) events) :
    (Run.run (step rootname) (init tree) events).Live :=
  h.invariant (fun _ _ => live_step) (live_init tree)

def literal (str : String) : StrList := .cons (.str (ascii str)) 0 .nil

/-- A script of one block. -/
def script (shead : List Stmt) : Event := .ephp (some [.code shead]) []

/-- Steps of a script that reads no files. -/
def ticks (n : ℕ) : List Event := List.replicate n (.tick ⟨fun _ => none, fun _ => none⟩)

def emptyRoot : XmlNode := ⟨ascii "root", 0, none, none, []⟩

/-- A loop below an anchor deletes what is below its entries, and a request a node elsewhere. -/
def careful : List Event :=
  [.set (ascii "/a/x:1/c") (ascii "1"), .set (ascii "/b") (ascii "2"),
    script [.anchor (literal "/a"), .for_ (literal "x") [.del (literal "c")]]] ++ ticks 10 ++
  [.del (ascii "/b"), script [.query false (literal "x:1")]] ++ ticks 5

theorem pointers_live_careful :
    (Run.run (step (ascii "root")) (init emptyRoot) careful).Live :=
  pointers_live _ _ _ (by decide +kernel)

/-- A script leaves its anchor behind, a request deletes the node, and the next script looks up a
    relative path. -/
def careless : List Event :=
  [.set (ascii "/a/b") (ascii "1"), script [.anchor (literal "/a")]] ++ ticks 5 ++
  [.del (ascii "/a"), script [.query false (literal "b")]] ++ ticks 5

/-- **A freed node is accessed** after an ordinary order of requests. -/
theorem pointers_live_careless :
    ¬ ∀ (rootname : Bytes) (tree : XmlNode) (events : List Event),
      (Run.run (step rootname) (init tree) events).Live := by
  intro h
  have hstop : (Run.run (step (ascii "root")) (init emptyRoot) careless).stop = some (.freed true) := by
    decide +kernel
  exact (h _ _ careless).stop true hstop

end Xmldb.Ephp
