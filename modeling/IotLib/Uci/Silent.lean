/-
  What is recorded while changes are replayed: the calls are internal ones, but `uci_set` of an empty
  value calls `uci_delete`, which is not told so.
-/
import IotLib.Uci.Frame
import IotLib.Uci.Names

namespace Uci

open Exec

/-! ## The calls -/

section
variable {p p' : Package} {ptr q : Ptr} {d : Delta} {s : Nat}

section
-- the equations of these definitions, which the lemmas below rewrite with
attribute [local simp] uciParseDeltaLine uciExpandPtr Ptr.withOption uciSet runDelta deltaLoop
end

theorem uciRename_delta (h : uciRename true p ptr = .ok p') : p'.delta = p.delta := by
  obtain ⟨q, -, h⟩ := ok_bind h
  dsimp only at h
  split at h
  · split at h
    · obtain rfl := Except.ok.inj h
      rw [record_internal]
      rfl
    · obtain rfl := Except.ok.inj h
      rw [record_internal]
      rfl
  · cases h

theorem uciDelete_delta (h : uciDelete true p ptr = .ok p') : p'.delta = p.delta := by
  obtain ⟨q, -, h⟩ := ok_bind h
  dsimp only at h
  split at h
  · cases h
  · split at h
    · split at h
      · cases h
      · split_ifs at h
        · obtain rfl := Except.ok.inj h
          rw [record_internal]
          rfl
        · obtain rfl := Except.ok.inj h
          rfl
    · split at h
      · obtain rfl := Except.ok.inj h
        rw [record_internal]
        rfl
      · obtain rfl := Except.ok.inj h
        rw [record_internal]

theorem uciAddList_delta (h : uciAddList true p ptr = .ok p') : p'.delta = p.delta := by
  obtain ⟨q, -, h⟩ := ok_bind h
  dsimp only at h
  split at h
  · obtain rfl := Except.ok.inj h
    rw [record_internal]
    split <;> rfl
  · cases h

theorem uciDelList_delta (h : uciDelList true p ptr = .ok p') : p'.delta = p.delta := by
  obtain ⟨q, -, h⟩ := ok_bind h
  dsimp only at h
  split at h
  · split at h
    · split at h
      · obtain rfl := Except.ok.inj h
        rfl
      · obtain rfl := Except.ok.inj h
        rw [record_internal]
        rfl
    · obtain rfl := Except.ok.inj h
      rfl
  · cases h

theorem uciReorderSection_delta (pos : Int) : (uciReorderSection true p s pos).delta = p.delta := by
  unfold uciReorderSection
  dsimp only
  split_ifs
  · rw [record_internal]
  · rfl

theorem setElement_delta {value : Str} {r : Package × Option Nat × Bool}
    (h : setElement p q value = .ok r) : r.1.delta = p.delta := by
  unfold setElement at h
  split at h
  · obtain rfl := Except.ok.inj h
    rfl
  · obtain rfl := Except.ok.inj h
    rfl
  · split_ifs at h
    · obtain rfl := Except.ok.inj h
      rfl
    · obtain rfl := Except.ok.inj h
      unfold setOption
      split
      · split_ifs <;> rfl
      · rfl
  · split_ifs at h
    · obtain rfl := Except.ok.inj h
      rfl
    · obtain rfl := Except.ok.inj h
      unfold setType
      split_ifs <;> rfl
  · cases h

end

/-! ## A line -/

/-- The pointer of a line: names and a value. -/
structure Ptr.Parsed (ptr : Ptr) : Prop where
  sect : ptr.sect ≠ none
  s : ptr.s = none
  o : ptr.o = none
  done : ptr.done = false
  complete : ptr.complete = false

/-- The line does not set an element that is there to an empty value. -/
def Silent (p : Package) (cmd : Command) (ptr : Ptr) : Prop :=
  ¬ (p.hasDelta = true ∧ (cmd = .add ∨ cmd = .change) ∧ ptr.value = some [] ∧
    (uciLookupPtr p ptr).complete = true)

instance (p : Package) (cmd : Command) (ptr : Ptr) : Decidable (Silent p cmd ptr) :=
  inferInstanceAs (Decidable (¬ _))

section
variable {p p' : Package} {ptr q : Ptr} {cmd : Command}

/-- What a lookup finds for the pointer of a line. -/
theorem Ptr.Parsed.lookup (h : ptr.Parsed) : (uciLookupPtr p ptr).value = ptr.value ∧
    (uciLookupPtr p ptr).done = true ∧
    ((uciLookupPtr p ptr).complete = true → ∃ s, (uciLookupPtr p ptr).s = some s) := by
  obtain ⟨sect, option, value, s, o, done, complete⟩ := ptr
  obtain ⟨hsect, rfl, rfl, rfl, rfl⟩ := h
  obtain ⟨name, rfl⟩ := Option.ne_none_iff_exists'.1 hsect
  unfold uciLookupPtr
  dsimp only
  split
  · exact ⟨rfl, rfl, by simp⟩
  · split
    · exact ⟨rfl, rfl, fun _ => ⟨_, rfl⟩⟩
    · split
      · exact ⟨rfl, rfl, fun _ => ⟨_, rfl⟩⟩
      · exact ⟨rfl, rfl, fun _ => ⟨_, rfl⟩⟩

theorem expand_lookup {complete : Bool} (hdone : ptr.done = false) (hq : uciExpandPtr p ptr complete = .ok q) :
    q.value = (uciLookupPtr p ptr).value ∧ q.complete = (uciLookupPtr p ptr).complete ∧
      q.s = (uciLookupPtr p ptr).s := by
  unfold uciExpandPtr at hq
  dsimp only at hq
  have hfind : (if ptr.done = true then ptr else uciLookupPtr p ptr) = uciLookupPtr p ptr :=
    if_neg (by rw [hdone]; decide)
  rw [hfind] at hq
  split_ifs at hq
  obtain rfl := Except.ok.inj hq
  exact ⟨rfl, rfl, rfl⟩

/-- A deletion that is recorded. -/
theorem uciDelete_records {s : Nat} (hdone : q.done = true) (hs : q.s = some s)
    (hvalue : q.value = some []) (h : uciDelete false p q = .ok p') :
    ∃ d, p'.delta = if p.hasDelta = true then p.delta ++ [d] else p.delta := by
  obtain ⟨q', hq', h⟩ := ok_bind h
  unfold uciExpandPtr at hq'
  dsimp only at hq'
  rw [if_pos hdone] at hq'
  split_ifs at hq'
  obtain rfl := Except.ok.inj hq'
  have hrecord : ∀ d, (p.record false d).delta = if p.hasDelta = true then p.delta ++ [d] else p.delta := by
    intro d
    unfold Package.record
    split_ifs with h1 h2 h2
    · rfl
    · exact absurd h1.2 h2
    · exact absurd ⟨rfl, h2⟩ h1
    · rfl
  dsimp only at h
  rw [hs] at h
  dsimp only at h
  split at h
  · rename_i o items value hitem
    unfold Ptr.item at hitem
    dsimp only at hitem
    rw [hvalue] at hitem
    split at hitem
    · rename_i v _ hv
      obtain rfl := Option.some.inj hv
      split at hitem
      · rw [if_pos rfl] at hitem
        cases hitem
      · cases hitem
    · cases hitem
  · split at h
    · obtain rfl := Except.ok.inj h
      exact ⟨_, hrecord _⟩
    · obtain rfl := Except.ok.inj h
      exact ⟨_, hrecord _⟩

/-- `uci_set` as an internal call. -/
theorem uciSet_delta (hptr : ptr.Parsed) {r : Package × Option Nat} (h : uciSet true p ptr = .ok r) :
    ∃ ds, r.1.delta = p.delta ++ ds ∧ (ds = [] ↔
      ¬ (p.hasDelta = true ∧ ptr.value = some [] ∧ (uciLookupPtr p ptr).complete = true)) := by
  obtain ⟨q, value, hq, hvalue, -, hres⟩ := uciSet_cases h
  obtain ⟨hlvalue, -, hcomplete⟩ := @Ptr.Parsed.lookup p ptr hptr
  obtain ⟨hqvalue, hqcomplete, hqs⟩ := expand_lookup hptr.done hq
  have hptrvalue : ptr.value = some value := hlvalue.symm.trans (hqvalue.symm.trans hvalue)
  rcases hres with ⟨-, hno, hr⟩ | ⟨rfl, hyes, hdel⟩ | ⟨hne, r', hset, -, hr⟩
  · refine ⟨[], by rw [hr, List.append_nil], iff_of_true rfl fun hall => ?_⟩
    rw [← hqcomplete, hno] at hall
    exact Bool.false_ne_true hall.2.2
  · obtain ⟨s, hs⟩ := hcomplete (hqcomplete.symm.trans hyes)
    have hwith : (q.withOption p).done = true ∧ (q.withOption p).s = some s ∧
        (q.withOption p).value = some [] := by
      have hdone := expand_done hq
      have hsq := hqs.trans hs
      unfold Ptr.withOption
      split <;> exact ⟨hdone, hsq, hvalue⟩
    obtain ⟨d, hd⟩ := uciDelete_records hwith.1 hwith.2.1 hwith.2.2 hdel
    by_cases hp : p.hasDelta = true
    · rw [if_pos hp] at hd
      refine ⟨[d], hd, iff_of_false nofun (not_not_intro ⟨hp, hptrvalue, ?_⟩)⟩
      rw [← hqcomplete, hyes]
    · rw [if_neg hp] at hd
      exact ⟨[], by rw [hd, List.append_nil], iff_of_true rfl fun hall => hp hall.1⟩
  · refine ⟨[], ?_, iff_of_true rfl fun hall => hne (Option.some.inj (hptrvalue.symm.trans hall.2.1))⟩
    rw [hr, List.append_nil, ← setElement_delta hset, record_internal]
    split_ifs <;> rfl

/-- A line that is executed. -/
theorem runDelta_delta (hptr : ptr.Parsed) (h : runDelta cmd ptr p = .ok p') :
    ∃ ds, p'.delta = p.delta ++ ds ∧ (ds = [] ↔ Silent p cmd ptr) := by
  have hsilent : p'.delta = p.delta → (cmd = .add ∨ cmd = .change → False) →
      ∃ ds, p'.delta = p.delta ++ ds ∧ (ds = [] ↔ Silent p cmd ptr) := fun hdelta hcmd =>
    ⟨[], by rw [hdelta, List.append_nil], iff_of_true rfl fun hall => hcmd hall.2.1⟩
  have hset : ∀ {r : Package × Option Nat}, uciSet true p ptr = .ok r → p'.delta = r.1.delta →
      cmd = .add ∨ cmd = .change → ∃ ds, p'.delta = p.delta ++ ds ∧ (ds = [] ↔ Silent p cmd ptr) := by
    intro r hr hdelta hcmd
    obtain ⟨ds, hds, hiff⟩ := uciSet_delta hptr hr
    refine ⟨ds, hdelta.trans hds, hiff.trans (not_congr ?_)⟩
    exact ⟨fun hall => ⟨hall.1, hcmd, hall.2⟩, fun hall => ⟨hall.1, hall.2.2⟩⟩
  cases cmd with
  | reorder =>
    obtain ⟨q, -, h⟩ := ok_bind h
    split at h
    · cases h
    · obtain rfl := Except.ok.inj h
      exact hsilent (uciReorderSection_delta _) (by simp)
  | rename => exact hsilent (uciRename_delta h) (by simp)
  | remove => exact hsilent (uciDelete_delta h) (by simp)
  | listAdd => exact hsilent (uciAddList_delta h) (by simp)
  | listDel => exact hsilent (uciDelList_delta h) (by simp)
  | add =>
    obtain ⟨r, hr, h⟩ := ok_bind h
    dsimp only at h
    refine hset hr ?_ (.inl rfl)
    split at h
    · obtain rfl := Except.ok.inj h
      split_ifs <;> rfl
    · obtain rfl := Except.ok.inj h
      rfl
  | change =>
    change (uciSet true p ptr).map Prod.fst = .ok p' at h
    cases hr : uciSet true p ptr with
    | error e =>
      rw [hr] at h
      cases h
    | ok r =>
      rw [hr] at h
      exact hset hr (by rw [← Except.ok.inj h]) (.inr rfl)

theorem expand_complete (hdone : q.done = true) (hcomplete : q.complete = true) (complete : Bool) :
    ∃ q', uciExpandPtr p q complete = .ok q' ∧ q'.s = q.s ∧ q'.o = q.o ∧ q'.value = q.value := by
  unfold uciExpandPtr
  dsimp only
  rw [if_pos hdone, if_neg (by rw [hcomplete]; simp)]
  exact ⟨_, rfl, rfl, rfl, rfl⟩

/-- An element that is there is deleted. -/
theorem uciDelete_isOk {s : Nat} (hdone : q.done = true) (hcomplete : q.complete = true)
    (hs : q.s = some s) (hvalue : q.value = some []) (internal : Bool) :
    ∃ p', uciDelete internal p q = .ok p' := by
  obtain ⟨q', hq', hs', ho', hvalue'⟩ := @expand_complete p q hdone hcomplete true
  unfold uciDelete
  rw [hq']
  simp only [bind, Except.bind]
  rw [hs', hs]
  dsimp only
  have hitem : q'.item p = none := by
    unfold Ptr.item
    rw [hvalue', hvalue]
    split
    · rename_i v _ hv
      obtain rfl := Option.some.inj hv
      split
      · rw [if_pos rfl]
      · rfl
    · rfl
  rw [hitem]
  dsimp only
  split <;> exact ⟨_, rfl⟩

theorem uciSet_isOk {internal : Bool} (hptr : ptr.Parsed) (hvalue : ptr.value = some [])
    (hcomplete : (uciLookupPtr p ptr).complete = true) : ∃ r, uciSet internal p ptr = .ok r := by
  obtain ⟨hlvalue, -, hfound⟩ := @Ptr.Parsed.lookup p ptr hptr
  obtain ⟨s, hs⟩ := hfound hcomplete
  cases hq : uciExpandPtr p ptr false with
  | error e =>
    unfold uciExpandPtr at hq
    dsimp only at hq
    rw [if_neg (by simp)] at hq
    cases hq
  | ok q =>
    obtain ⟨hqvalue, hqcomplete, hqs⟩ := expand_lookup hptr.done hq
    have hqdone := expand_done hq
    have hqv : q.value = some [] := hqvalue.trans (hlvalue.trans hvalue)
    have hqc : q.complete = true := hqcomplete.trans hcomplete
    have hqs' : q.s = some s := hqs.trans hs
    have hrest : ∀ q' : Ptr, q'.done = true → q'.complete = true → q'.s = some s → q'.value = some [] →
        ∃ r : Package × Option Nat, (if q'.complete = false then
          (pure (p, q'.s) : Except Err (Package × Option Nat))
          else do return (← uciDelete false p q', if q'.option = none then none else q'.s)) = .ok r := by
      intro q' h1 h2 h3 h4
      obtain ⟨p', hp'⟩ := @uciDelete_isOk p q' s h1 h2 h3 h4 false
      rw [if_neg (by rw [h2]; decide), hp']
      exact ⟨_, rfl⟩
    have hwith := hrest (q.withOption p) ?_ ?_ ?_ ?_
    · unfold uciSet
      rw [hq]
      simp only [bind, Except.bind]
      split
      · rename_i hnone
        rw [hqv] at hnone
        cases hnone
      · rename_i value hsome
        obtain rfl := Option.some.inj (hqv.symm.trans hsome)
        rw [if_neg (by simp [hqs']), if_neg (by simp)]
        exact hwith
    all_goals
      unfold Ptr.withOption
      split <;> assumption

/-- A line that is not executed is a silent one. -/
theorem silent_of_error {e : Err} (hptr : ptr.Parsed) (h : runDelta cmd ptr p = .error e) :
    Silent p cmd ptr := by
  rintro ⟨-, hcmd, hvalue, hcomplete⟩
  obtain ⟨r, hr⟩ := @uciSet_isOk p ptr true hptr hvalue hcomplete
  rcases hcmd with rfl | rfl
  · have hok : ∃ p', runDelta .add ptr p = .ok p' := by
      unfold runDelta
      dsimp only
      rw [hr]
      simp only [bind, Except.bind]
      split <;> exact ⟨_, rfl⟩
    obtain ⟨p', hok⟩ := hok
    rw [hok] at h
    cases h
  · have hok : runDelta .change ptr p = .ok r.1 := by
      unfold runDelta
      dsimp only
      rw [hr]
      rfl
    rw [hok] at h
    cases h

end

/-! ## A file -/

/-- What a line of the file is replayed on: the package, the command and the element. -/
abbrev Replayed := Package × Command × Ptr

/-- The change of a line, if it is one of the package. -/
def lineReplayed (c : Ctx) : List Replayed :=
  match uciParseDeltaTuple c with
  | .error _ _ => []
  | .ok (cmd, package, ptr) c' => (c'.package.toList.filter (·.name = package)).map fun p => (p, cmd, ptr)

/-- The changes that `deltaLoop` replays, with the packages at that time. -/
def replayed : Nat → Ctx → List Replayed
  | 0, _ => []
  | fuel + 1, c =>
    if c.eof then []
    else if c.nextLine.char 0 = 0 then replayed fuel c.nextLine
    else
      lineReplayed c.nextLine ++
        match uciParseDeltaLine c.nextLine with
        | .ok _ c' => replayed fuel c'
        | .error _ c' => replayed fuel c'

/-- The package of the context has recorded `ds` more, and nothing if the changes are silent. -/
structure Grown (c : Ctx) (ls : List Replayed) (c' : Ctx) : Prop where
  package : ∀ p, c.package = some p → ∃ p', c'.package = some p' ∧
    ∃ ds, p'.delta = p.delta ++ ds ∧ (ds = [] ↔ ∀ l ∈ ls, Silent l.1 l.2.1 l.2.2)

section
variable {c c' c'' : Ctx} {ls ls' : List Replayed}

theorem Grown.refl (h : c'.package = c.package) : Grown c [] c' := by
  refine ⟨fun p hp => ⟨p, h.trans hp, [], by rw [List.append_nil], iff_of_true rfl nofun⟩⟩

theorem Grown.trans (h : Grown c ls c') (h' : Grown c' ls' c'') : Grown c (ls ++ ls') c'' := by
  refine ⟨fun p hp => ?_⟩
  obtain ⟨p', hp', ds, hds, hiff⟩ := h.package p hp
  obtain ⟨p'', hp'', ds', hds', hiff'⟩ := h'.package p' hp'
  refine ⟨p'', hp'', ds ++ ds', by rw [hds', hds, List.append_assoc], ?_⟩
  rw [List.append_eq_nil_iff, hiff, hiff']
  constructor
  · rintro ⟨hall, hall'⟩ l hl
    exact (List.mem_append.1 hl).elim (hall l) (hall' l)
  · intro hall
    exact ⟨fun l hl => hall l (List.mem_append_left _ hl), fun l hl => hall l (List.mem_append_right _ hl)⟩

theorem uciParsePtr_fields {str package : Str} {ptr : Ptr} {extended : Bool}
    (h : uciParsePtr str = .ok (package, ptr, extended)) :
    ptr.s = none ∧ ptr.o = none ∧ ptr.done = false ∧ ptr.complete = false := by
  unfold uciParsePtr at h
  dsimp only at h
  generalize (if equals ∈ str then some ((str.dropWhile (· ≠ equals)).drop 1) else none) = value at h
  split_ifs at h
  cases h
  exact ⟨rfl, rfl, rfl, rfl⟩

/-- A line has names and a value. -/
theorem tuple_parsed {cmd : Command} {package : Str} {ptr : Ptr}
    (h : Runs uciParseDeltaTuple c (cmd, package, ptr) c') : ptr.Parsed := by
  obtain ⟨ofs, c₁, -, h⟩ := h.split
  obtain ⟨c₂, c₃, hget, h⟩ := h.split
  cases hget
  by_cases hcur : c₁.curStr ≠ []
  · rw [if_pos hcur] at h
    cases h
  rw [if_neg hcur] at h
  dsimp only at h
  split at h
  · cases h
  rename_i package' ptr' extended hptr
  by_cases hbad : ptr'.sect = none ∨ extended = true ∨
      (commandOf ((c₁.str ofs).headD 0) ≠ .remove ∧ ptr'.value = none)
  · rw [if_pos hbad] at h
    cases h
  rw [if_neg hbad] at h
  have hsame : ptr = ptr' := by
    split at h
    · split_ifs at h
      · cases h
      · cases h
        rfl
    · split_ifs at h
      · cases h
      · cases h
        rfl
    · split_ifs at h
      · cases h
      · cases h
        rfl
    · split_ifs at h
      · cases h
      · cases h
        rfl
    · cases h
      rfl
  subst hsame
  obtain ⟨hs, ho, hdone, hcomplete⟩ := uciParsePtr_fields hptr
  exact ⟨fun hnone => hbad (.inl hnone), hs, ho, hdone, hcomplete⟩

/-- A line. -/
theorem line_grown (c : Ctx) : (∃ c', Runs uciParseDeltaLine c () c' ∧ Grown c (lineReplayed c) c') ∨
    ∃ e c', Throws uciParseDeltaLine c e c' ∧ Grown c (lineReplayed c) c' := by
  have hkeeps : Keeps (SameOuter c.outer) uciParseDeltaTuple c := uciParseDeltaTuple_keeps rfl
  cases htuple : uciParseDeltaTuple c with
  | error e c' =>
    have hlines : lineReplayed c = [] := by
      unfold lineReplayed
      rw [htuple]
    obtain ⟨-, -, -, hpkg, -, -⟩ := outer_eq (hkeeps.throws htuple)
    refine .inr ⟨e, c', ?_, hlines ▸ Grown.refl hpkg⟩
    unfold uciParseDeltaLine
    exact .first htuple
  | ok r c' =>
    obtain ⟨cmd, package, ptr⟩ := r
    have hptr : ptr.Parsed := tuple_parsed htuple
    have hlines : lineReplayed c =
        (c'.package.toList.filter (·.name = package)).map fun p => (p, cmd, ptr) := by
      unfold lineReplayed
      rw [htuple]
    obtain ⟨-, -, -, hpkg, -, -⟩ := outer_eq (hkeeps.runs htuple)
    have hgrown : ∀ p, c'.package = some p → p.name = package → ∀ p' ds, p'.delta = p.delta ++ ds →
        (ds = [] ↔ Silent p cmd ptr) → ∀ c'', c''.package = some p' → Grown c (lineReplayed c) c'' := by
      intro p hp hname p' ds hds hiff c'' hc''
      refine ⟨fun p₀ hp₀ => ⟨p', hc'', ds, ?_, ?_⟩⟩
      · rw [hds, Option.some.inj ((hpkg.trans hp₀).symm.trans hp)]
      · rw [hlines, hp, Option.toList_some, List.filter_cons_of_pos (by simp [hname]), List.filter_nil,
          List.map_singleton, List.forall_mem_singleton]
        exact hiff
    cases hp : c'.package with
    | none =>
      have hnone : c.package = none := hpkg.symm.trans hp
      refine .inr ⟨.inval, c', ?_, ⟨fun p hp' => ?_⟩⟩
      · unfold uciParseDeltaLine
        refine .seq htuple (.read ?_)
        rw [if_neg (by simp [hp])]
        unfold liftPackage
        refine .read ?_
        rw [hp]
        exact .raise _ _
      · rw [hnone] at hp'
        cases hp'
    | some p =>
      by_cases hname : p.name = package
      · cases hrun : runDelta cmd ptr p with
        | error e =>
          refine .inr ⟨e, c', ?_, hgrown p hp hname p [] (by rw [List.append_nil])
            (iff_of_true rfl (silent_of_error hptr hrun)) c' hp⟩
          unfold uciParseDeltaLine
          refine .seq htuple (.read ?_)
          rw [if_neg (by simp [hp, hname])]
          refine liftPackage_throws hp ?_
          rw [hrun]
          rfl
        | ok p' =>
          obtain ⟨ds, hds, hiff⟩ := runDelta_delta hptr hrun
          refine .inl ⟨{ c' with package := some p' }, ?_, hgrown p hp hname p' ds hds hiff _ rfl⟩
          unfold uciParseDeltaLine
          refine .seq htuple (.read ?_)
          rw [if_neg (by simp [hp, hname])]
          refine liftPackage_runs hp ?_
          rw [hrun]
          rfl
      · refine .inr ⟨.parse "" 0 0, c', ?_, ?_⟩
        · unfold uciParseDeltaLine
          refine .seq htuple (.read ?_)
          rw [if_pos (by simp [hp, hname])]
          exact .first (.raise _ _)
        · have hnil : lineReplayed c = [] := by
            rw [hlines, hp, Option.toList_some, List.filter_cons_of_neg (by simp [hname])]
            rfl
          exact hnil ▸ Grown.refl hpkg

/-- The loop. -/
theorem deltaLoop_grown (fuel m : Nat) (c : Ctx) :
    ∃ n c', Runs (deltaLoop fuel m) c n c' ∧ Grown c (replayed fuel c) c' := by
  induction fuel generalizing m c with
  | zero => exact ⟨m, c, .ret _ _, Grown.refl rfl⟩
  | succ fuel ih =>
    rw [replayed]
    by_cases heof : c.eof = true
    · rw [if_pos heof]
      refine ⟨m, c, ?_, Grown.refl rfl⟩
      unfold deltaLoop
      refine .read ?_
      rw [if_pos heof]
      exact .ret _ _
    rw [if_neg heof]
    rw [Bool.not_eq_true] at heof
    obtain ⟨-, -, -, hpkg, -, -⟩ := outer_eq (uciGetln_outer { c with pos := 0 } 0)
    have hnext : Grown c [] c.nextLine := Grown.refl hpkg
    by_cases hchar : c.nextLine.char 0 = 0
    · obtain ⟨n, c', hrun, hgrown⟩ := ih m c.nextLine
      rw [if_pos hchar]
      exact ⟨n, c', deltaLoop_skip heof hchar hrun, hnext.trans hgrown⟩
    rw [if_neg hchar]
    rcases line_grown c.nextLine with ⟨c₁, hline, hgrown₁⟩ | ⟨e, c₁, hline, hgrown₁⟩
    · obtain ⟨n, c', hrun, hgrown⟩ := ih (m + 1) c₁
      have hall := hnext.trans (hgrown₁.trans hgrown)
      rw [List.nil_append] at hall
      rw [show uciParseDeltaLine c.nextLine = .ok () c₁ from hline]
      exact ⟨n, c', deltaLoop_line heof hchar hline hrun, hall⟩
    · obtain ⟨n, c', hrun, hgrown⟩ := ih m c₁
      have hall := hnext.trans (hgrown₁.trans hgrown)
      rw [List.nil_append] at hall
      rw [show uciParseDeltaLine c.nextLine = .error e c₁ from hline]
      exact ⟨n, c', deltaLoop_error heof hchar hline hrun, hall⟩

end

/-! ## Loading -/

/-- The context in which a file is read. -/
def Ctx.opened (c : Ctx) (stream : Str) : Ctx :=
  { strict := c.strict, root := c.root, file := stream, package := c.package }

/-- The changes of the files that are there. -/
def filesReplayed : List (Option Str) → Ctx → List Replayed
  | [], _ => []
  | none :: files, c => filesReplayed files c
  | some stream :: files, c =>
    replayed (stream.length + 2) (c.opened stream) ++
      match deltaLoop (stream.length + 2) 0 (c.opened stream) with
      | .ok _ c' => filesReplayed files c'
      | .error _ c' => filesReplayed files c'

/-- The changes that `uci_load_delta` replays. -/
def loadReplayed (files : List (Option Str)) (c : Ctx) : List Replayed :=
  if c.package.any Package.hasDelta = false then [] else filesReplayed files c

theorem files_grown (files : List (Option Str)) (m : Nat) (c : Ctx) : ∃ n c',
    Runs (files.foldlM (fun changes file => return changes + (← uciLoadDeltaFile file)) m) c n c' ∧
      Grown c (filesReplayed files c) c' := by
  induction files generalizing m c with
  | nil => exact ⟨m, c, .ret _ _, Grown.refl rfl⟩
  | cons file files ih =>
    cases file with
    | none =>
      obtain ⟨n, c', hrun, hgrown⟩ := ih (m + 0) c
      exact ⟨n, c', hrun, hgrown⟩
    | some stream =>
      obtain ⟨n₁, c₁, hloop, hgrown₁⟩ := deltaLoop_grown (stream.length + 2) 0 (c.opened stream)
      obtain ⟨n, c', hrun, hgrown⟩ := ih (m + n₁) c₁
      have hopen : Grown c [] (c.opened stream) := Grown.refl rfl
      have hall := hopen.trans (hgrown₁.trans hgrown)
      rw [List.nil_append] at hall
      rw [filesReplayed, show deltaLoop (stream.length + 2) 0 (c.opened stream) = .ok n₁ c₁ from hloop]
      refine ⟨n, c', ?_, hall⟩
      rw [List.foldlM_cons]
      refine .seq (.seq ?_ (.ret _ _)) hrun
      exact .update hloop

/-- A line is written for each change. -/
theorem uciSave_same_iff (file : Str) (p : Package) : (uciSave file p).1 = file ↔ p.delta = [] := by
  unfold uciSave
  rw [List.append_right_eq_self, List.flatMap_eq_nil_iff]
  constructor
  · intro h
    refine List.eq_nil_iff_forall_not_mem.2 fun d hd => ?_
    have hline := h d hd
    unfold uciDeltaSave at hline
    exact List.cons_ne_nil _ _ (List.append_eq_nil_iff.1 hline).2
  · intro h d hd
    rw [h] at hd
    cases hd

/-- **What loading records**: nothing, unless a line of the files sets an element that is there at that
    time to an empty value. So if there was nothing recorded before, `uci_save` writes nothing. -/
theorem load_silent_iff (files : List (Option Str)) {c : Ctx} {p : Package} (hp : c.package = some p) :
    ∃ n c' p', Runs (uciLoadDelta files) c n c' ∧ c'.package = some p' ∧
      (p'.delta = p.delta ↔ ∀ l ∈ loadReplayed files c, Silent l.1 l.2.1 l.2.2) ∧
      (p.delta = [] → ∀ file,
        (uciSave file p').1 = file ↔ ∀ l ∈ loadReplayed files c, Silent l.1 l.2.1 l.2.2) := by
  suffices h : ∃ n c' p', Runs (uciLoadDelta files) c n c' ∧ c'.package = some p' ∧
      (p'.delta = p.delta ↔ ∀ l ∈ loadReplayed files c, Silent l.1 l.2.1 l.2.2) by
    obtain ⟨n, c', p', hrun, hp', hiff⟩ := h
    refine ⟨n, c', p', hrun, hp', hiff, fun hnil file => ?_⟩
    rw [uciSave_same_iff, ← hiff, hnil]
  unfold uciLoadDelta loadReplayed
  by_cases hdelta : c.package.any Package.hasDelta = false
  · refine ⟨0, c, p, ?_, hp, ?_⟩
    · refine .read ?_
      rw [if_pos hdelta]
      exact .ret _ _
    · rw [if_pos hdelta]
      exact iff_of_true rfl nofun
  · obtain ⟨n, c', hrun, hgrown⟩ := files_grown files 0 c
    obtain ⟨p', hp', ds, hds, hiff⟩ := hgrown.package p hp
    refine ⟨n, c', p', ?_, hp', ?_⟩
    · refine .read ?_
      rw [if_neg hdelta]
      exact hrun
    · rw [if_neg hdelta, hds, ← hiff]
      exact List.append_right_eq_self

/-- A package with a section. -/
def oneSection : Package :=
  { name := bytes "p", sections := [{ name := bytes "a", type := bytes "t" }], hasDelta := true }

/-- A new type is set, and an option of a section that is not there to nothing. -/
theorem load_silent :
    ∃ n c' p', Runs (uciLoadDelta [some (bytes "p.a=u\np.b.x=\n")]) { package := some oneSection } n c' ∧
      c'.package = some p' ∧ (uciSave [] p').1 = [] := by
  obtain ⟨n, c', p', hrun, hp', -, hsave⟩ := @load_silent_iff [some (bytes "p.a=u\np.b.x=\n")]
    { package := some oneSection } _ rfl
  exact ⟨n, c', p', hrun, hp', (hsave rfl []).2 (by decide +kernel)⟩

/-- The section is set to nothing: its deletion is recorded. -/
theorem load_records :
    (match uciLoadDelta [some (bytes "p.a=\n")] { package := some oneSection } with
      | .ok _ c => c.package.map Package.delta
      | .error _ _ => none) = some [{ cmd := .remove, sect := bytes "a" }] := by
  decide +kernel

end Uci
