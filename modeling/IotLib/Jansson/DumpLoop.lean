/-
  `json_dump_callback` with its set of containers, which every call changes and restores: it
  returns for every graph of values, and is the encoder of `Dump`.
-/
import IotLib.Jansson.Loop

namespace Jansson

section
variable {R σ : Type}

/-- What a dump works on: the set, whether a call was nested too deeply, and what the callback
    works on -/
structure Walk (σ : Type) where
  parents : LoopSet
  exhausted : Bool
  state : σ

/-- A writer that leaves the set alone -/
def Writer.lift (w : Writer σ) : Writer (Walk σ) := fun s =>
  match w s.state with
  | (r, state) => (r, { s with state })

/-- The callback -/
def Callback.lift (dump : Callback σ) : Callback (Walk σ) := fun chunk => Writer.lift (dump chunk)

/-- `jsonp_loop_check` -/
def checkLoop (key : Bytes) : Writer (Walk σ) := fun s =>
  match jsonpLoopCheck s.parents key with
  | none => (-1, s)
  | some parents => (0, { s with parents })

/-- `hashtable_del`, whose result is not looked at -/
def release (key : Bytes) : Writer (Walk σ) := fun s =>
  (0, { s with parents := objectDel key s.parents })

/-- An array or an object, with the check -/
def walkBracketed {α : Type} (dump : Callback (Walk σ)) (key : Bytes) (flags : DumpFlags)
    (embed : Bool) (depth : Nat) (first last : UInt8) (item : α → Writer (Walk σ))
    (items : List α) : Writer (Walk σ) :=
  let finish := Writer.check (release key) (if embed then giveBack 0 else dump [last])
  Writer.check (checkLoop key)
    (Writer.check (if embed then giveBack 0 else dump [first])
      (if items.isEmpty then finish
        else
          Writer.check (dumpIndent dump flags (depth + 1) false)
            (Writer.check (dumpItems dump flags depth item items) finish)))

variable (address : ℕ → UInt64) (heap : Heap R) (dtostr : Nat → R → Option Bytes)
  (dump : Callback σ)

/-- `do_dump`, with at most `n` nested calls -/
def walkDump : Nat → DumpFlags → Nat → Ref → Writer (Walk σ)
  | 0, _, _, _ => fun s => (-1, { s with exhausted := true })
  | n + 1, flags, depth, json =>
    let embed := flags.embed
    let flags := { flags with embed := false }
    match json with
    | .null => dump.lift (ascii "null")
    | .true => dump.lift (ascii "true")
    | .false => dump.lift (ascii "false")
    | .node i =>
      match heap[i]? with
      | none => giveBack (-1)
      | some (.integer value) => dump.lift (integerText value)
      | some (.real value) =>
        match dtostr flags.precision value with
        | none => giveBack (-1)
        | some text => dump.lift text
      | some (.string value) => dumpString dump.lift flags value
      | some (.array elems) =>
        walkBracketed dump.lift (pointerText (address i)) flags embed depth 0x5B 0x5D
          (walkDump n flags (depth + 1)) elems
      | some (.object members) =>
        walkBracketed dump.lift (pointerText (address i)) flags embed depth 0x7B 0x7D
          (dumpMember dump.lift flags (walkDump n flags (depth + 1)))
          (dumpOrder flags.sortKeys members)

/-- `json_dump_callback`, for at most `n` nested calls -/
def walkDumpCallback (n : Nat) (flags : DumpFlags) (json : Ref) : Writer (Walk σ) :=
  if !flags.encodeAny && !isContainer heap json then giveBack (-1)
  else walkDump address heap dtostr dump n flags 0 json

/-! ## Writers that leave the set alone -/

section
variable {dump}

theorem lift_check (a b : Writer σ) :
    Writer.lift (Writer.check a b) = Writer.check (Writer.lift a) (Writer.lift b) := by
  funext s
  unfold Writer.lift Writer.check
  dsimp only
  generalize a s.state = r
  obtain ⟨r, s'⟩ := r
  dsimp only
  split_ifs <;> rfl

theorem lift_forget (a : Writer σ) :
    Writer.lift (Writer.forget a) = Writer.forget (Writer.lift a) := rfl

theorem dumpSpaces_lift : ∀ n spaces : ℕ,
    dumpSpaces dump.lift n spaces = Writer.lift (dumpSpaces dump n spaces)
  | 0, _ => rfl
  | n + 1, spaces => by
    rw [dumpSpaces, dumpSpaces]
    by_cases hzero : spaces = 0
    · rw [if_pos hzero, if_pos hzero]
      rfl
    · rw [if_neg hzero, if_neg hzero]
      dsimp only
      rw [lift_check, dumpSpaces_lift n]
      rfl

theorem dumpIndent_lift (flags : DumpFlags) (depth : ℕ) (space : Bool) :
    dumpIndent dump.lift flags depth space = Writer.lift (dumpIndent dump flags depth space) := by
  unfold dumpIndent
  split_ifs
  · dsimp only
    rw [lift_check, dumpSpaces_lift]
    rfl
  · rfl
  · rfl

theorem dumpBody_lift (flags : DumpFlags) : ∀ (n : ℕ) (str : Bytes),
    dumpBody dump.lift flags n str = Writer.lift (dumpBody dump flags n str)
  | 0, _ => rfl
  | n + 1, str => by
    rw [dumpBody, dumpBody]
    cases dumpRun flags str.length str with
    | none => rfl
    | some p =>
      obtain ⟨run, next⟩ := p
      dsimp only
      rw [lift_check]
      congr 1
      · split_ifs <;> rfl
      · cases next with
        | none => rfl
        | some p =>
          dsimp only
          rw [lift_check, dumpBody_lift flags n]
          rfl

theorem dumpString_lift (flags : DumpFlags) (str : Bytes) :
    dumpString dump.lift flags str = Writer.lift (dumpString dump flags str) := by
  rw [dumpString, dumpString, lift_check, dumpBody_lift]
  rfl

end

/-! ## The set and the containers above -/

/-- A writer with the set, from `parents` to `parents'`, does what one without does. -/
def RunsAs (parents parents' : LoopSet) (w : Writer (Walk σ)) (w' : Writer σ) : Prop :=
  ∀ s, s.parents = parents → (w s).1 = (w' s.state).1 ∧ (w s).2.state = (w' s.state).2 ∧
    (w s).2.exhausted = s.exhausted ∧ ((w s).1 = 0 → (w s).2.parents = parents')

section
variable {address heap dtostr dump} {parents parents' parents'' : LoopSet}
  {a b : Writer (Walk σ)} {a' b' : Writer σ}

theorem runsAs_lift (w : Writer σ) : RunsAs parents parents (Writer.lift w) w :=
  fun _ hs => ⟨rfl, rfl, rfl, fun _ => hs⟩

theorem RunsAs.check (ha : RunsAs parents parents' a a') (hb : RunsAs parents' parents'' b b') :
    RunsAs parents parents'' (Writer.check a b) (Writer.check a' b') := by
  intro s hs
  obtain ⟨hr, hstate, hexhausted, hparents⟩ := ha s hs
  unfold Writer.check
  generalize a s = r at hr hstate hexhausted hparents ⊢
  generalize a' s.state = r' at hr hstate ⊢
  obtain ⟨r, s₁⟩ := r
  obtain ⟨r', state⟩ := r'
  dsimp only at hr hstate hexhausted hparents ⊢
  subst hr hstate
  by_cases hr : r = 0
  · rw [if_pos hr, if_pos hr]
    obtain ⟨h₁, h₂, h₃, h₄⟩ := hb s₁ (hparents hr)
    exact ⟨h₁, h₂, h₃.trans hexhausted, h₄⟩
  · rw [if_neg hr, if_neg hr]
    exact ⟨rfl, rfl, hexhausted, fun h => absurd h (by decide : (-1 : Int) ≠ 0)⟩

theorem check_giveBack (w : Writer σ) : Writer.check (giveBack 0) w = w := rfl

theorem runsAs_items {α : Type} {flags : DumpFlags} {depth : ℕ} {item : α → Writer (Walk σ)}
    {item' : α → Writer σ} : ∀ {items : List α},
    (∀ x ∈ items, RunsAs parents parents (item x) (item' x)) →
    RunsAs parents parents (dumpItems dump.lift flags depth item items)
      (dumpItems dump flags depth item' items)
  | [], _ => runsAs_lift (giveBack 0)
  | [x], h => by
    rw [dumpItems, dumpItems, dumpIndent_lift]
    exact (h x List.mem_cons_self).check (runsAs_lift _)
  | x :: y :: items, h => by
    have hrest : RunsAs parents parents (dumpItems dump.lift flags depth item (y :: items))
        (dumpItems dump flags depth item' (y :: items)) :=
      runsAs_items fun z hz => h z (List.mem_cons_of_mem x hz)
    have hindent : RunsAs parents parents (dumpIndent dump.lift flags (depth + 1) true)
        (dumpIndent dump flags (depth + 1) true) := by
      rw [dumpIndent_lift]
      exact runsAs_lift _
    exact (h x List.mem_cons_self).check
      ((runsAs_lift (dump [0x2C])).check (hindent.check hrest))

/-- The brackets, with the check and without -/
theorem runsAs_bracketed {α : Type} {key : Bytes} {flags : DumpFlags} {embed : Bool} {depth : ℕ}
    {first last : UInt8} {item : α → Writer (Walk σ)} {item' : α → Writer σ} {items : List α}
    (hcheck : jsonpLoopCheck parents key = some parents')
    (h : ∀ x ∈ items, RunsAs parents' parents' (item x) (item' x)) :
    RunsAs parents parents
      (walkBracketed dump.lift key flags embed depth first last item items)
      (dumpBracketed dump flags embed depth first last item' items) := by
  have henter : RunsAs parents parents' (checkLoop key) (giveBack (σ := σ) 0) := by
    intro s hs
    rw [checkLoop, hs, hcheck]
    exact ⟨rfl, rfl, rfl, fun _ => rfl⟩
  have hleave : RunsAs parents' parents (release key) (giveBack (σ := σ) 0) := by
    intro s hs
    refine ⟨rfl, rfl, rfl, fun _ => ?_⟩
    show objectDel key s.parents = parents
    rw [hs, objectDel_loopCheck hcheck]
  have hbracket : ∀ (c : UInt8) (p : LoopSet), RunsAs p p
      (if embed then giveBack 0 else dump.lift [c]) (if embed then giveBack 0 else dump [c]) := by
    intro c p
    cases embed with
    | true => exact runsAs_lift (giveBack 0)
    | false => exact runsAs_lift (dump [c])
  have hfinish := hleave.check (hbracket last parents)
  rw [check_giveBack] at hfinish
  have hindent : RunsAs parents' parents' (dumpIndent dump.lift flags (depth + 1) false)
      (dumpIndent dump flags (depth + 1) false) := by
    rw [dumpIndent_lift]
    exact runsAs_lift _
  cases items with
  | nil => exact henter.check ((hbracket first parents').check hfinish)
  | cons x items =>
    exact henter.check ((hbracket first parents').check
      (hindent.check ((runsAs_items h).check hfinish)))

theorem runsAs_member {flags : DumpFlags} {value : Ref → Writer (Walk σ)}
    {value' : Ref → Writer σ} {m : Bytes × Option Ref}
    (h : ∀ p, m.2 = some p → RunsAs parents parents (value p) (value' p)) :
    RunsAs parents parents (dumpMember dump.lift flags value m) (dumpMember dump flags value' m) := by
  have hkey : RunsAs parents parents (Writer.forget (dumpString dump.lift flags m.1))
      (Writer.forget (dumpString dump flags m.1)) := by
    rw [dumpString_lift, ← lift_forget]
    exact runsAs_lift _
  refine hkey.check ((runsAs_lift (dump _)).check ?_)
  cases hm : m.2 with
  | none => exact runsAs_lift (giveBack (-1))
  | some p => exact h p hm

/-- **`do_dump` restores the set**, and with the containers above in it does what the encoder
    does that is given them. -/
theorem walkDump_runsAs
    (hinj : ∀ i < heap.length, ∀ j < heap.length, address i = address j → i = j) :
    ∀ {n : ℕ} {flags : DumpFlags} {depth : ℕ} {parents : LoopSet} {path : List Ref} {p : Ref},
    Ancestors address heap parents path → heap.length < n + path.length →
    RunsAs parents parents (walkDump address heap dtostr dump n flags depth p)
      (doDump heap dtostr dump n flags depth path p)
  | 0, _, _, _, path, _, h, hn => by
    have hle := h.length_le
    omega
  | n + 1, flags, depth, parents, path, p, h, hn => by
    -- a container is above what is inside it
    have hinside : ∀ {i : ℕ} {flags : DumpFlags}, i < heap.length →
        isContainer heap (.node i) = true → .node i ∉ path →
        ∃ parents', jsonpLoopCheck parents (pointerText (address i)) = some parents' ∧
          ∀ q, RunsAs parents' parents'
            (walkDump address heap dtostr dump n flags (depth + 1) q)
            (doDump heap dtostr dump n flags (depth + 1) (.node i :: path) q) := by
      intro i flags hi hcontainer hnot
      obtain ⟨parents', hcheck, h'⟩ := h.check_new hinj hi hcontainer hnot
      refine ⟨parents', hcheck, fun q => walkDump_runsAs hinj h' ?_⟩
      rw [List.length_cons]
      omega
    have hmet : ∀ {i : ℕ} {α : Type} {flags : DumpFlags} {embed : Bool} {first last : UInt8}
        {item : α → Writer (Walk σ)} {items : List α}, i < heap.length → .node i ∈ path →
        RunsAs parents parents (walkBracketed dump.lift (pointerText (address i)) flags embed depth
          first last item items) (giveBack (-1)) := by
      intro i α flags embed first last item items hi hmem s hs
      have hfail : checkLoop (pointerText (address i)) s = (-1, s) := by
        rw [checkLoop, hs, h.check_mem hi hmem]
      rw [walkBracketed]
      unfold Writer.check
      rw [hfail]
      exact ⟨rfl, rfl, rfl, fun h => absurd h (by decide : (-1 : Int) ≠ 0)⟩
    rw [walkDump.eq_def, doDump.eq_def]
    cases p with
    | null => exact runsAs_lift (dump (ascii "null"))
    | true => exact runsAs_lift (dump (ascii "true"))
    | false => exact runsAs_lift (dump (ascii "false"))
    | node i =>
      dsimp only
      cases hi : heap[i]? with
      | none => exact runsAs_lift (giveBack (-1))
      | some node =>
        have hlt := (List.getElem?_eq_some_iff.1 hi).1
        cases node with
        | integer value => exact runsAs_lift (dump (integerText value))
        | real value =>
          dsimp only
          cases dtostr flags.precision value with
          | none => exact runsAs_lift (giveBack (-1))
          | some text => exact runsAs_lift (dump text)
        | string value =>
          dsimp only
          rw [dumpString_lift]
          exact runsAs_lift _
        | array elems =>
          dsimp only
          split_ifs with hmem
          · exact hmet hlt hmem
          · obtain ⟨parents', hcheck, hall⟩ := hinside hlt (by simp [isContainer, jsonTypeof, hi]) hmem
            exact runsAs_bracketed hcheck fun q _ => hall q
        | object members =>
          dsimp only
          split_ifs with hmem
          · exact hmet hlt hmem
          · obtain ⟨parents', hcheck, hall⟩ := hinside hlt (by simp [isContainer, jsonTypeof, hi]) hmem
            exact runsAs_bracketed hcheck fun m _ => runsAs_member fun q _ => hall q

/-- The rounds that are left do not count. -/
theorem doDump_rounds : ∀ {n m : ℕ} {flags : DumpFlags} {depth : ℕ} {path : List Ref} {p : Ref},
    Above heap path → heap.length < n + path.length → heap.length < m + path.length →
    doDump heap dtostr dump n flags depth path p = doDump heap dtostr dump m flags depth path p
  | 0, _, _, _, path, _, h, hn, _ => by
    have hle := h.length_le
    omega
  | _ + 1, 0, _, _, path, _, h, _, hm => by
    have hle := h.length_le
    omega
  | n + 1, m + 1, flags, depth, path, p, h, hn, hm => by
    have hinside : ∀ {i : ℕ} {flags : DumpFlags}, i < heap.length →
        isContainer heap (.node i) = true → .node i ∉ path →
        doDump heap dtostr dump n flags (depth + 1) (.node i :: path) =
          doDump heap dtostr dump m flags (depth + 1) (.node i :: path) := by
      intro i flags hi hcontainer hnot
      funext q
      refine doDump_rounds (h.cons hi hcontainer hnot) ?_ ?_ <;>
      · rw [List.length_cons]
        omega
    rw [doDump.eq_def, doDump.eq_def heap dtostr dump (m + 1)]
    cases p with
    | null => rfl
    | true => rfl
    | false => rfl
    | node i =>
      dsimp only
      cases hi : heap[i]? with
      | none => rfl
      | some node =>
        have hlt := (List.getElem?_eq_some_iff.1 hi).1
        cases node with
        | integer value => rfl
        | real value => rfl
        | string value => rfl
        | array elems =>
          dsimp only
          split_ifs with hmem
          · rfl
          · rw [hinside hlt (by simp [isContainer, jsonTypeof, hi]) hmem]
        | object members =>
          dsimp only
          split_ifs with hmem
          · rfl
          · rw [hinside hlt (by simp [isContainer, jsonTypeof, hi]) hmem]

/-- **`json_dump_callback` returns** for every graph, cycles or not: no call is nested deeper
    than there are values, and the result is that of the encoder. -/
theorem walkDumpCallback_returns
    (hinj : ∀ i < heap.length, ∀ j < heap.length, address i = address j → i = j) {n : ℕ}
    (hn : heap.length < n) (flags : DumpFlags) (json : Ref) (state : σ) :
    let result := walkDumpCallback address heap dtostr dump n flags json ⟨[], false, state⟩
    result.2.exhausted = false ∧
      (result.1, result.2.state) = jsonDumpCallback heap dtostr dump flags json state := by
  dsimp only
  rw [walkDumpCallback, jsonDumpCallback]
  split_ifs with hany
  · exact ⟨rfl, rfl⟩
  have hrounds : heap.length < n + ([] : List Ref).length := hn
  have hruns : RunsAs [] [] (walkDump address heap dtostr dump n flags 0 json)
      (doDump heap dtostr dump n flags 0 [] json) := walkDump_runsAs hinj .nil hrounds
  obtain ⟨hr, hstate, hexhausted, -⟩ := hruns ⟨[], false, state⟩ rfl
  refine ⟨hexhausted, ?_⟩
  rw [hr, hstate, doDump_rounds .nil hrounds (Nat.lt_succ_self heap.length)]

end

end

end Jansson
