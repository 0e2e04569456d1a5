/-
  The names of sections and options (`list.c`): which calls keep them different, and what a new type
  leaves of a section.
-/
import IotLib.Uci.Package
import IotLib.Lib.Run

namespace Uci

open Run List

/-! ## Names -/

def Package.names (p : Package) : List Str := p.sections.map Sect.name

def Sect.names (s : Sect) : List Str := s.options.map Opt.name

/-- Sections have different names, and so have the options of a section. -/
structure Package.Unique (p : Package) : Prop where
  sections : p.names.Nodup
  options : ∀ s ∈ p.sections, s.names.Nodup

/-- An element gets a name: the one at a position, or a new one at the end. -/
def give (names : List Str) (old : Option Nat) (name : Str) : List Str :=
  match old with
  | none => names ++ [name]
  | some i => names.set i name

/-- The names of the other elements. -/
def others (names : List Str) : Option Nat → List Str
  | none => names
  | some i => names.eraseIdx i

/-- A name that a call gives to a section or an option of one. -/
inductive Naming where
  | sect (old : Option Nat) (name : Str)
  | option (s : Nat) (old : Option Nat) (name : Str)
deriving DecidableEq, Repr

/-- No other section, or option of the section, has the name. -/
def Naming.Fresh (p : Package) : Naming → Prop
  | .sect old name => name ∉ others p.names old
  | .option s old name => name ∉ others (p.sect s).names old

instance (p : Package) : ∀ n : Naming, Decidable (n.Fresh p)
  | .sect old name => inferInstanceAs (Decidable (name ∉ others p.names old))
  | .option s old name => inferInstanceAs (Decidable (name ∉ others (p.sect s).names old))

section
variable {p : Package} {names : List Str} {name : Str} {s o : Nat}

/-- **Giving a name** keeps the names different when no other element has it. -/
theorem nodup_give (h : names.Nodup) {old : Option Nat} (hold : ∀ i ∈ old, i < names.length) :
    (give names old name).Nodup ↔ name ∉ others names old := by
  cases old with
  | none =>
    unfold give others
    rw [List.nodup_append_comm, List.singleton_append, List.nodup_cons]
    exact and_iff_left h
  | some i =>
    unfold give others
    rw [(List.set_perm_cons_eraseIdx (hold i rfl) name).nodup_iff, List.nodup_cons]
    exact and_iff_left (h.sublist (List.eraseIdx_sublist ..))

theorem sect_mem (hs : s < p.sections.length) : p.sect s ∈ p.sections := by
  unfold Package.sect
  rw [List.getD_eq_getElem _ _ hs]
  exact List.getElem_mem hs

theorem modify_getD {α : Type} {l : List α} {i : Nat} (h : i < l.length) (f : α → α) (d : α) :
    l.modify i f = l.set i (f (l.getD i d)) := by
  rw [List.getD_eq_getElem _ _ h]
  refine List.ext_getElem (by rw [List.length_modify, List.length_set]) fun j h₁ h₂ => ?_
  rw [List.getElem_modify, List.getElem_set]
  by_cases hij : i = j
  · subst hij
    rw [if_pos rfl]
  · rw [if_neg hij, if_neg hij]

theorem sections_modSect (hs : s < p.sections.length) (f : Sect → Sect) :
    (p.modSect s f).sections = p.sections.set s (f (p.sect s)) :=
  modify_getD hs f _

theorem names_modSect (hs : s < p.sections.length) (f : Sect → Sect) :
    (p.modSect s f).names = p.names.set s (f (p.sect s)).name := by
  unfold Package.names
  rw [sections_modSect hs, List.map_set]

/-- A change of a section that keeps the names of its options. -/
theorem unique_modSect (h : p.Unique) (hs : s < p.sections.length) {f : Sect → Sect}
    (hf : (f (p.sect s)).names = (p.sect s).names) :
    (p.modSect s f).Unique ↔ (p.names.set s (f (p.sect s)).name).Nodup := by
  constructor
  · intro h'
    have hnames := h'.sections
    rwa [names_modSect hs] at hnames
  · intro hnames
    refine ⟨by rwa [names_modSect hs], fun x hx => ?_⟩
    rw [sections_modSect hs] at hx
    rcases List.mem_or_eq_of_mem_set hx with hx | rfl
    · exact h.options x hx
    · rw [hf]
      exact h.options _ (sect_mem hs)

/-- A change of the options of a section. -/
theorem unique_modSect_options (h : p.Unique) (hs : s < p.sections.length) {f : Sect → Sect}
    (hf : (f (p.sect s)).name = (p.sect s).name) :
    (p.modSect s f).Unique ↔ (f (p.sect s)).names.Nodup := by
  have hmem : f (p.sect s) ∈ (p.modSect s f).sections := by
    rw [sections_modSect hs]
    exact List.mem_set hs _
  constructor
  · intro h'
    exact h'.options _ hmem
  · intro hnames
    refine ⟨?_, fun x hx => ?_⟩
    · have hsame : p.names.set s (p.sect s).name = p.names := by
        unfold Package.names Package.sect
        rw [← List.map_set, List.getD_eq_getElem _ _ hs, List.set_getElem_self]
      rw [names_modSect hs, hf, hsame]
      exact h.sections
    · rw [sections_modSect hs] at hx
      rcases List.mem_or_eq_of_mem_set hx with hx | rfl
      · exact h.options x hx
      · exact hnames

theorem names_set_self {α : Type} {f : α → Str} {l : List α} {d : α} {i : Nat} (h : i < l.length) :
    (l.map f).set i (f (l.getD i d)) = l.map f := by
  rw [← List.map_set, List.getD_eq_getElem _ _ h, List.set_getElem_self]

/-- A change of an option. -/
theorem unique_modOpt (h : p.Unique) (hs : s < p.sections.length)
    (ho : o < (p.sect s).options.length) (f : Opt → Opt) :
    (p.modOpt s o f).Unique ↔ ((p.sect s).names.set o (f ((p.sect s).opt o)).name).Nodup := by
  unfold Package.modOpt
  rw [unique_modSect_options h hs rfl]
  unfold Sect.names
  dsimp only
  rw [modify_getD ho f, List.map_set]
  exact Iff.rfl

/-- An option that is called as before. -/
theorem unique_modOpt_same (h : p.Unique) (hs : s < p.sections.length)
    (ho : o < (p.sect s).options.length) {f : Opt → Opt}
    (hf : (f ((p.sect s).opt o)).name = ((p.sect s).opt o).name) : (p.modOpt s o f).Unique := by
  rw [unique_modOpt h hs ho, hf]
  unfold Sect.opt Sect.names
  rw [names_set_self ho]
  exact h.options _ (sect_mem hs)

/-- A new option. -/
theorem unique_newOption (h : p.Unique) (hs : s < p.sections.length) (x : Opt) :
    (p.modSect s fun y => { y with options := y.options ++ [x] }).Unique ↔
      x.name ∉ others (p.sect s).names none := by
  rw [unique_modSect_options h hs rfl,
    ← @nodup_give (p.sect s).names x.name (h.options _ (sect_mem hs)) none (by simp)]
  unfold Sect.names give
  dsimp only
  rw [List.map_append]
  exact Iff.rfl

/-- A new section. -/
theorem unique_newSection (h : p.Unique) {x : Sect} (hx : x.options = []) {p' : Package}
    (hp : p'.sections = p.sections ++ [x]) : p'.Unique ↔ x.name ∉ others p.names none := by
  have hnames : p'.names = give p.names none x.name := by
    unfold Package.names give
    rw [hp, List.map_append]
    rfl
  rw [← @nodup_give p.names x.name h.sections none (by simp), ← hnames]
  refine ⟨fun h' => h'.sections, fun hn => ⟨hn, fun y hy => ?_⟩⟩
  rw [hp] at hy
  rcases List.mem_append.1 hy with hy | hy
  · exact h.options y hy
  · rw [List.mem_singleton.1 hy]
    unfold Sect.names
    rw [hx]
    exact List.nodup_nil

/-- Nothing gets a name that it did not have. -/
theorem Package.Unique.sublist (h : p.Unique) {p' : Package} (hp : p'.sections <+ p.sections) : p'.Unique :=
  ⟨h.sections.sublist (hp.map _), fun x hx => h.options x (hp.subset hx)⟩

theorem Package.Unique.perm (h : p.Unique) {p' : Package} (hp : p'.sections ~ p.sections) : p'.Unique :=
  ⟨(hp.map _).nodup_iff.2 h.sections, fun x hx => h.options x (hp.subset hx)⟩

/-- Only the sections matter. -/
theorem Package.Unique.congr {p' : Package} (hp : p'.sections = p.sections) : p'.Unique ↔ p.Unique := by
  constructor
  · intro h
    exact h.sublist (hp ▸ Sublist.refl _)
  · intro h
    exact h.sublist (hp ▸ Sublist.refl _)

theorem sections_record (p : Package) (internal : Bool) (d : Delta) :
    (p.record internal d).sections = p.sections := by
  unfold Package.record
  split_ifs <;> rfl

end

/-! ## The calls -/

/-- The calls that change a package. -/
inductive Op where
  | set (ptr : Ptr)
  | addSection (type : Str)
  | addList (ptr : Ptr)
  | delList (ptr : Ptr)
  | delete (ptr : Ptr)
  | rename (ptr : Ptr)
  | reorder (s : Nat) (pos : Int)

def Op.call (internal : Bool) (p : Package) : Op → Except Err Package
  | .set ptr => (uciSet internal p ptr).map Prod.fst
  | .addSection type => .ok (uciAddSection internal p type)
  | .addList ptr => uciAddList internal p ptr
  | .delList ptr => uciDelList internal p ptr
  | .delete ptr => uciDelete internal p ptr
  | .rename ptr => uciRename internal p ptr
  | .reorder s pos => .ok (uciReorderSection internal p s pos)

/-- The pointers of the caller are to elements of the package. -/
structure Ptr.Valid (p : Package) (ptr : Ptr) : Prop where
  sect : ∀ s ∈ ptr.s, s < p.sections.length
  option : ∀ o ∈ ptr.o, ∀ s ∈ ptr.s.orElse fun _ => ptr.sect.bind p.lookup,
    o < (p.sect s).options.length

def Op.Valid (p : Package) : Op → Prop
  | .addSection _ => True
  | .reorder s _ => s < p.sections.length
  | .set ptr | .addList ptr | .delList ptr | .delete ptr | .rename ptr => ptr.Valid p

/-- A new value does not fit in the place of the old one. -/
def Value.replaced (value : Str) : Value → Bool
  | .string str => str.length ≠ value.length
  | .list _ => true

/-- The name that a call gives. -/
def Op.naming (p : Package) : Op → Option Naming
  | .set ptr => do
    let q ← (uciExpandPtr p ptr false).toOption
    let value ← q.value
    if value = [] then none
    else
      match q.s, q.sect, q.o, q.option with
      | none, some name, _, _ => some (.sect none name)
      | some s, _, some o, some option =>
        if ((p.sect s).opt o).value.replaced value then some (.option s (some o) option) else none
      | _, _, _, _ => none
  | .addSection type => some (.sect none (uciFixupSection (p.nSection + 1) type))
  | .addList ptr => do
    let q ← (uciExpandPtr p ptr false).toOption
    let s ← q.s
    match q.o.map fun o => ((p.sect s).opt o).value with
    | some (.list _) => none
    | _ => some (.option s q.o (q.option.getD []))
  | .rename ptr => do
    let q ← (uciExpandPtr p ptr true).toOption
    let s ← q.s
    let value ← q.value
    return match q.o with
      | some o => .option s (some o) value
      | none => .sect (some s) value
  | _ => none

section
variable {p p' : Package} {ptr q : Ptr} {internal complete : Bool} {s o : Nat} {d : Delta}

theorem unique_record : (p.record internal d).Unique ↔ p.Unique :=
  Package.Unique.congr (sections_record p internal d)

theorem unique_modSect_record {f : Sect → Sect} :
    ((p.record internal d).modSect s f).Unique ↔ (p.modSect s f).Unique := by
  refine Package.Unique.congr ?_
  change (p.record internal d).sections.modify s f = p.sections.modify s f
  rw [sections_record]

theorem sect_lookup {name : Str} {x : Sect} (h : x.lookup name = some o) :
    o < x.options.length ∧ (x.opt o).name = name := by
  unfold Sect.lookup at h
  obtain ⟨ho, hname, -⟩ := List.findIdx?_eq_some_iff_getElem.1 h
  unfold Sect.opt
  rw [List.getD_eq_getElem _ _ ho]
  exact ⟨ho, of_decide_eq_true hname⟩

theorem lookup_lt {name : Str} (h : p.lookup name = some s) : s < p.sections.length := by
  obtain ⟨hs, -⟩ := List.findIdx?_eq_some_iff_getElem.1 h
  exact hs

/-- The pointers are to elements of the package. -/
def Ptr.Inside (p : Package) (q : Ptr) : Prop :=
  ∀ s ∈ q.s, s < p.sections.length ∧ ∀ o ∈ q.o, o < (p.sect s).options.length

/-- The pointers after a section was found. -/
theorem Ptr.Inside.found (hs : s < p.sections.length) (ho : ∀ o ∈ ptr.o, o < (p.sect s).options.length)
    (hq : q.s = some s) (hqo : q.o = ptr.o ∨ ∃ name, q.o = (p.sect s).lookup name) : q.Inside p := by
  intro i hi
  obtain rfl := Option.some.inj (hq.symm.trans hi)
  refine ⟨hs, fun o hmem => ?_⟩
  rcases hqo with hqo | ⟨name, hqo⟩
  · exact ho o (hqo ▸ hmem)
  · exact (sect_lookup (hqo.symm.trans hmem)).1

theorem Ptr.Valid.lookup (h : ptr.Valid p) : (uciLookupPtr p ptr).Inside p := by
  have hfound : ∀ s, (ptr.s.orElse fun _ => ptr.sect.bind p.lookup) = some s →
      s < p.sections.length ∧ ∀ o ∈ ptr.o, o < (p.sect s).options.length := by
    intro s hs
    refine ⟨?_, fun o ho => h.option o ho s hs⟩
    rcases hptr : ptr.s with _ | i
    · rw [hptr] at hs
      obtain ⟨name, -, hname⟩ := Option.bind_eq_some_iff.1 hs
      exact lookup_lt hname
    · rw [hptr] at hs
      obtain rfl := Option.some.inj hs
      exact h.sect i hptr
  unfold uciLookupPtr
  dsimp only
  split
  · rename_i hnone _
    intro s hs
    rw [hnone] at hs
    cases hs
  · split
    · rename_i hnone
      intro s hs
      cases hptr : ptr.s with
      | none =>
        rw [hptr] at hs
        cases hs
      | some i =>
        rw [hptr] at hnone
        cases hnone
    · rename_i i hi
      obtain ⟨hs, ho⟩ := hfound i hi
      split
      · exact Ptr.Inside.found hs ho rfl (.inl rfl)
      · rename_i name _
        split
        · exact Ptr.Inside.found hs ho rfl (.inl rfl)
        · rename_i j hj
          exact Ptr.Inside.found hs ho rfl (.inr ⟨name, hj.symm⟩)

/-- The pointers that `uci_expand_ptr` leaves are to elements of the package. -/
theorem Ptr.Valid.expand (h : ptr.Valid p) (hq : uciExpandPtr p ptr complete = .ok q) : q.Inside p := by
  have hinside : (if ptr.done then ptr else uciLookupPtr p ptr).Inside p := by
    split_ifs
    · intro s hs
      refine ⟨h.sect s hs, fun o ho => h.option o ho s ?_⟩
      rw [hs]
      rfl
    · exact h.lookup
  unfold uciExpandPtr at hq
  dsimp only at hq
  generalize (if ptr.done then ptr else uciLookupPtr p ptr) = r at hq hinside
  split_ifs at hq
  obtain rfl := Except.ok.inj hq
  exact hinside

theorem forall_naming {n : Naming} {x : Option Naming} (h : x = some n) :
    (∀ m ∈ x, m.Fresh p) ↔ n.Fresh p := by
  rw [h]
  exact ⟨fun hall => hall n rfl, fun hn m hm => Option.some.inj hm ▸ hn⟩

theorem option_lt (ho : o < (p.sect s).options.length) : ∀ i ∈ some o, i < (p.sect s).names.length := by
  rintro i hi
  rw [Sect.names, List.length_map, ← Option.some.inj hi]
  exact ho

/-- `uci_rename` gives its value as name. -/
theorem uciRename_unique (h : p.Unique) (hv : ptr.Valid p) (hp : uciRename internal p ptr = .ok p') :
    p'.Unique ↔ ∀ n ∈ (Op.rename ptr).naming p, n.Fresh p := by
  unfold uciRename at hp
  cases hq : uciExpandPtr p ptr true with
  | error e =>
    rw [hq] at hp
    cases hp
  | ok q =>
    rw [hq] at hp
    have hin := hv.expand hq
    obtain ⟨sect, option, value, s, o, done, complete⟩ := q
    cases s with
    | none => cases hp
    | some s =>
    cases value with
    | none => cases hp
    | some value =>
    obtain ⟨hs, ho⟩ := hin s rfl
    cases o with
    | some o =>
      obtain rfl := Except.ok.inj hp
      have hnaming : (Op.rename ptr).naming p = some (.option s (some o) value) := by
        rw [Op.naming, hq]
        rfl
      rw [forall_naming hnaming]
      refine unique_modSect_record.trans ((unique_modOpt h hs (ho o rfl) _).trans ?_)
      exact nodup_give (h.options _ (sect_mem hs)) (option_lt (ho o rfl))
    | none =>
      obtain rfl := Except.ok.inj hp
      have hnaming : (Op.rename ptr).naming p = some (.sect (some s) value) := by
        rw [Op.naming, hq]
        rfl
      have hlt : ∀ i ∈ some s, i < p.names.length := by
        intro i hi
        rw [Package.names, List.length_map, ← Option.some.inj hi]
        exact hs
      rw [forall_naming hnaming]
      exact unique_modSect_record.trans ((unique_modSect h hs rfl).trans (nodup_give h.sections hlt))

/-- `uci_add_section` gives a name that it makes. -/
theorem uciAddSection_unique (h : p.Unique) (type : Str) : (uciAddSection internal p type).Unique ↔
    ∀ n ∈ (Op.addSection type).naming p, n.Fresh p := by
  have hnaming : (Op.addSection type).naming p = some (.sect none (uciFixupSection (p.nSection + 1) type)) := rfl
  rw [forall_naming hnaming]
  unfold uciAddSection
  dsimp only
  rw [unique_record]
  exact @unique_newSection p h ⟨_, type, true, []⟩ rfl _ rfl

/-- A string option of `uci_add_list` is made again. -/
theorem uciAddList_unique (h : p.Unique) (hv : ptr.Valid p) (hp : uciAddList internal p ptr = .ok p') :
    p'.Unique ↔ ∀ n ∈ (Op.addList ptr).naming p, n.Fresh p := by
  unfold uciAddList at hp
  cases hq : uciExpandPtr p ptr false with
  | error e =>
    rw [hq] at hp
    cases hp
  | ok q =>
    rw [hq] at hp
    have hin := hv.expand hq
    obtain ⟨sect, option, value, s, o, done, complete⟩ := q
    cases s with
    | none => cases hp
    | some s =>
    cases value with
    | none => cases hp
    | some value =>
    obtain ⟨hs, ho⟩ := hin s rfl
    obtain rfl := Except.ok.inj hp
    rw [unique_record]
    cases o with
    | none =>
      have hnaming : (Op.addList ptr).naming p = some (.option s none (option.getD [])) := by
        rw [Op.naming, hq]
        rfl
      rw [forall_naming hnaming]
      exact unique_newOption h hs _
    | some o =>
      cases hvalue : ((p.sect s).opt o).value with
      | string str =>
        have hnaming : (Op.addList ptr).naming p = some (.option s (some o) (option.getD [])) := by
          rw [Op.naming, hq]
          change (match some ((p.sect s).opt o).value with
            | some (.list _) => none
            | _ => some _) = _
          rw [hvalue]
        rw [forall_naming hnaming]
        refine (unique_modOpt h hs (ho o rfl) _).trans ?_
        rw [hvalue]
        exact nodup_give (h.options _ (sect_mem hs)) (option_lt (ho o rfl))
      | list items =>
        have hnaming : (Op.addList ptr).naming p = none := by
          rw [Op.naming, hq]
          change (match some ((p.sect s).opt o).value with
            | some (.list _) => none
            | _ => some _) = _
          rw [hvalue]
        rw [hnaming]
        refine iff_of_true (unique_modOpt_same h hs (ho o rfl) ?_) nofun
        rw [hvalue]

/-- Items have no names. -/
theorem uciDelList_unique (h : p.Unique) (hv : ptr.Valid p) (hp : uciDelList internal p ptr = .ok p') :
    p'.Unique := by
  unfold uciDelList at hp
  cases hq : uciExpandPtr p ptr false with
  | error e =>
    rw [hq] at hp
    cases hp
  | ok q =>
    have hin := hv.expand hq
    rw [hq] at hp
    simp only [bind, Except.bind] at hp
    split at hp
    · rename_i s value hs _
      obtain ⟨hlt, ho⟩ := hin s hs
      split at hp
      · rename_i o option hqo _
        split at hp
        · obtain rfl := Except.ok.inj hp
          exact h
        · obtain rfl := Except.ok.inj hp
          exact unique_modSect_record.2 (unique_modOpt_same h hlt (ho o hqo) rfl)
      · obtain rfl := Except.ok.inj hp
        exact h
    · cases hp

/-- What is deleted has no names any more. -/
theorem uciDelete_unique (h : p.Unique) (hv : ∀ q, uciExpandPtr p ptr true = .ok q → q.Inside p)
    (hp : uciDelete internal p ptr = .ok p') : p'.Unique := by
  unfold uciDelete at hp
  cases hq : uciExpandPtr p ptr true with
  | error e =>
    rw [hq] at hp
    cases hp
  | ok q =>
    have hin := hv q hq
    rw [hq] at hp
    simp only [bind, Except.bind] at hp
    split at hp
    · cases hp
    · rename_i s hs
      obtain ⟨hlt, ho⟩ := hin s hs
      split at hp
      · rename_i o items value hitem
        have hqo : q.o = some o := by
          unfold Ptr.item at hitem
          split at hitem
          · rename_i o' value' ho' _
            split at hitem
            · split_ifs at hitem
              cases hitem
              exact ho'
            · cases hitem
          · cases hitem
        split at hp
        · cases hp
        · split_ifs at hp
          · obtain rfl := Except.ok.inj hp
            exact unique_modSect_record.2 (unique_modOpt_same h hlt (ho o hqo) rfl)
          · obtain rfl := Except.ok.inj hp
            exact h
      · split at hp
        · obtain rfl := Except.ok.inj hp
          refine unique_modSect_record.2 ((unique_modSect_options h hlt rfl).2 ?_)
          exact (h.options _ (sect_mem hlt)).sublist ((List.eraseIdx_sublist ..).map _)
        · obtain rfl := Except.ok.inj hp
          refine h.sublist ?_
          change (p.record internal _).sections.eraseIdx s <+ p.sections
          rw [sections_record]
          exact List.eraseIdx_sublist ..

theorem uciReorderSection_unique (h : p.Unique) (hs : s < p.sections.length) (pos : Int) :
    (uciReorderSection internal p s pos).Unique := by
  have hperm : (uciListSetPos p.sections s pos).1 ~ p.sections := by
    unfold uciListSetPos
    dsimp only
    refine List.perm_middle.trans ?_
    rw [List.take_append_drop, List.getD_eq_getElem _ _ hs]
    exact List.getElem_cons_eraseIdx_perm hs
  unfold uciReorderSection
  dsimp only
  split_ifs
  · exact unique_record.2 (h.perm hperm)
  · exact h.perm hperm

theorem setOption_unique (h : p.Unique) (hs : s < p.sections.length)
    (ho : o < (p.sect s).options.length) (option value : Str) :
    (setOption p s o option value).Unique ↔
      (((p.sect s).opt o).value.replaced value = true → option ∉ others (p.sect s).names (some o)) := by
  have hgive : (p.modOpt s o fun _ => ⟨option, .string value⟩).Unique ↔
      option ∉ others (p.sect s).names (some o) :=
    (unique_modOpt h hs ho _).trans (nodup_give (h.options _ (sect_mem hs)) (option_lt ho))
  unfold setOption
  split
  · rename_i str hstr
    rw [hstr, Value.replaced, decide_eq_true_eq]
    split_ifs with hlen
    · exact iff_of_true (unique_modOpt_same h hs ho rfl) fun hne => absurd hlen hne
    · exact hgive.trans ⟨fun hn _ => hn, fun hn => hn hlen⟩
  · rename_i items hlist
    rw [hlist]
    exact hgive.trans ⟨fun hn _ => hn, fun hn => hn rfl⟩

theorem setType_unique (h : p.Unique) (hs : s < p.sections.length) (value : Str) :
    (setType p s value).Unique := by
  have hsame : p.names.set s (p.sect s).name = p.names := names_set_self hs
  unfold setType
  split_ifs
  · rw [unique_modSect h hs rfl, hsame]
    exact h.sections
  · rw [unique_modSect h hs rfl, hsame]
    exact h.sections

/-- An option that is there has the name that it is looked up by. -/
theorem others_lookup (h : p.Unique) (hs : s < p.sections.length) {option : Str}
    (ho : (p.sect s).lookup option = some o) : option ∉ others (p.sect s).names (some o) := by
  obtain ⟨hlt, hname⟩ := sect_lookup ho
  have hsame : (p.sect s).names.set o ((p.sect s).opt o).name = (p.sect s).names := names_set_self hlt
  refine (nodup_give (h.options _ (sect_mem hs)) (option_lt hlt)).1 ?_
  unfold give
  dsimp only
  rw [← hname, hsame]
  exact h.options _ (sect_mem hs)

/-- `uci_set`, for a value that is not empty. -/
theorem setElement_unique (h : p.Unique) (hin : q.Inside p) {value : Str} {r : Package × Option Nat × Bool}
    (hp : setElement p q value = .ok r) : r.1.Unique ↔
      (∀ name, q.s = none → q.sect = some name → name ∉ p.names) ∧
      (∀ s o option, q.s = some s → q.o = some o → q.option = some option →
        ((p.sect s).opt o).value.replaced value = true → option ∉ others (p.sect s).names (some o)) ∧
      ∀ s option, q.s = some s → q.o = none → q.option = some option → option ∉ (p.sect s).names := by
  obtain ⟨sect, option, v, s, o, done, complete⟩ := q
  cases s with
  | none =>
    cases sect with
    | none => cases hp
    | some name =>
      obtain rfl := Except.ok.inj hp
      refine (@unique_newSection p h ⟨name, value, name.isEmpty, []⟩ rfl _ rfl).trans ⟨fun hn => ?_, ?_⟩
      · exact ⟨fun name' _ hsect => Option.some.inj hsect ▸ hn, nofun, nofun⟩
      · exact fun hall => hall.1 name rfl rfl
  | some s =>
    obtain ⟨hs, ho⟩ := hin s rfl
    cases option with
    | none =>
      have hunique : r.1.Unique := by
        cases sect with
        | none => cases o <;> cases hp
        | some name =>
          have hp' : (if (p.sect s).type = value then .ok (p, some s, false)
              else .ok (setType p s value, some s, true) : Except Err _) = .ok r := by
            cases o <;> exact hp
          split_ifs at hp'
          · obtain rfl := Except.ok.inj hp'
            exact h
          · obtain rfl := Except.ok.inj hp'
            exact setType_unique h hs value
      exact iff_of_true hunique ⟨nofun, nofun, nofun⟩
    | some option =>
      cases o with
      | none =>
        obtain rfl := Except.ok.inj hp
        refine (unique_newOption h hs _).trans ⟨fun hn => ⟨nofun, nofun, ?_⟩, ?_⟩
        · rintro s' option' hs' - hoption
          obtain rfl := Option.some.inj hs'
          exact Option.some.inj hoption ▸ hn
        · exact fun hall => hall.2.2 s option rfl rfl rfl
      | some o =>
        have hset : r.1.Unique ↔ (((p.sect s).opt o).value.replaced value = true →
            option ∉ others (p.sect s).names (some o)) := by
          have hp' : (if ((p.sect s).opt o).value = .string value then .ok (p, some s, false)
              else .ok (setOption p s o option value, some s, true) : Except Err _) = .ok r := hp
          split_ifs at hp' with hvalue
          · obtain rfl := Except.ok.inj hp'
            refine iff_of_true h fun hrep => ?_
            rw [hvalue] at hrep
            simp [Value.replaced] at hrep
          · obtain rfl := Except.ok.inj hp'
            exact setOption_unique h hs (ho o rfl) option value
        refine hset.trans ⟨fun hn => ⟨nofun, ?_, nofun⟩, ?_⟩
        · rintro s' o' option' hs' ho' hoption
          obtain rfl := Option.some.inj hs'
          obtain rfl := Option.some.inj ho'
          obtain rfl := Option.some.inj hoption
          exact hn
        · exact fun hall => hall.2.1 s o option rfl rfl rfl

/-- The pointers that a call was given are used as they are. -/
theorem Ptr.Inside.expand (h : ptr.Inside p) (hdone : ptr.done = true)
    (hq : uciExpandPtr p ptr complete = .ok q) : q.Inside p := by
  unfold uciExpandPtr at hq
  dsimp only at hq
  rw [if_pos hdone] at hq
  split_ifs at hq
  obtain rfl := Except.ok.inj hq
  exact h

theorem expand_done (hq : uciExpandPtr p ptr complete = .ok q) : q.done = true := by
  have hdone : (if ptr.done then ptr else uciLookupPtr p ptr).done = true := by
    split_ifs with hptr
    · exact hptr
    · unfold uciLookupPtr
      dsimp only
      split
      · rfl
      · split
        · rfl
        · split
          · rfl
          · split <;> rfl
  unfold uciExpandPtr at hq
  dsimp only at hq
  generalize (if ptr.done then ptr else uciLookupPtr p ptr) = r at hq hdone
  split_ifs at hq
  obtain rfl := Except.ok.inj hq
  exact hdone

/-- `uci_set` looks for an option that the pointer does not have. -/
def Ptr.withOption (p : Package) (q : Ptr) : Ptr :=
  match q.o, q.s, q.option with
  | none, some s, some option => { q with o := (p.sect s).lookup option }
  | _, _, _ => q

/-- What `uci_set` does. -/
theorem uciSet_cases {r : Package × Option Nat} (hp : uciSet internal p ptr = .ok r) :
    ∃ q value, uciExpandPtr p ptr false = .ok q ∧ q.value = some value ∧
      (q.option = none → value ≠ [] → uciValidateType value = true) ∧
      (value = [] ∧ q.complete = false ∧ r.1 = p ∨
        value = [] ∧ q.complete = true ∧ uciDelete false p (q.withOption p) = .ok r.1 ∨
        value ≠ [] ∧ ∃ r', setElement p (q.withOption p) value = .ok r' ∧ r.2 = r'.2.1 ∧
          r.1 = if r'.2.2 then r'.1.record internal
              { cmd := .change, sect := q.sect.getD [], option := q.option, value := some value }
            else r'.1) := by
  obtain ⟨q, hq, hp⟩ := ok_bind hp
  dsimp only at hp
  split at hp
  · cases hp
  rename_i value hvalue
  by_cases h1 : q.s = none ∧ (q.option ≠ none ∨ q.sect = none)
  · rw [if_pos h1] at hp
    cases hp
  rw [if_neg h1] at hp
  by_cases h2 : q.option = none ∧ value ≠ [] ∧ uciValidateType value = false
  · rw [if_pos h2] at hp
    cases hp
  rw [if_neg h2] at hp
  refine ⟨q, value, hq, hvalue, fun ho hne => ?_, ?_⟩
  · by_contra hv
    exact h2 ⟨ho, hne, Bool.eq_false_iff.2 hv⟩
  have hcomplete : (q.withOption p).complete = q.complete ∧ (q.withOption p).s = q.s ∧
      (q.withOption p).sect = q.sect ∧ (q.withOption p).option = q.option := by
    unfold Ptr.withOption
    split <;> exact ⟨rfl, rfl, rfl, rfl⟩
  obtain ⟨hcomplete, hs, hsect, hoption⟩ := hcomplete
  have hrest : ∀ q' : Ptr, (if value = [] then
        if q'.complete = false then (pure (p, q'.s) : Except Err (Package × Option Nat))
        else do return (← uciDelete false p q', if q'.option = none then none else q'.s)
      else do
        let r ← setElement p q' value
        return (if r.2.2 then r.1.record internal
            { cmd := .change, sect := q'.sect.getD [], option := q'.option, value := some value }
          else r.1, r.2.1)) = .ok r →
      value = [] ∧ q'.complete = false ∧ r.1 = p ∨
        value = [] ∧ q'.complete = true ∧ uciDelete false p q' = .ok r.1 ∨
        value ≠ [] ∧ ∃ r', setElement p q' value = .ok r' ∧ r.2 = r'.2.1 ∧
          r.1 = if r'.2.2 then r'.1.record internal
              { cmd := .change, sect := q'.sect.getD [], option := q'.option, value := some value }
            else r'.1 := by
    intro q' h
    by_cases h3 : value = []
    · rw [if_pos h3] at h
      by_cases h4 : q'.complete = false
      · rw [if_pos h4] at h
        exact .inl ⟨h3, h4, by rw [← Except.ok.inj h]⟩
      · rw [if_neg h4] at h
        obtain ⟨p₁, hdel, h⟩ := ok_bind h
        exact .inr (.inl ⟨h3, Bool.not_eq_false _ ▸ h4, by rw [hdel, ← Except.ok.inj h]⟩)
    · rw [if_neg h3] at h
      obtain ⟨r', hset, h⟩ := ok_bind h
      refine .inr (.inr ⟨h3, r', hset, ?_, ?_⟩)
      · rw [← Except.ok.inj h]
      · rw [← Except.ok.inj h]
  have hres := hrest (q.withOption p) hp
  rw [hcomplete, hsect, hoption] at hres
  exact hres

theorem Ptr.Inside.withOption (h : q.Inside p) : (q.withOption p).Inside p := by
  unfold Ptr.withOption
  split
  · rename_i s option ho hs hoption
    intro s' hs'
    obtain rfl := Option.some.inj (hs.symm.trans hs')
    exact ⟨(h s hs).1, fun o hmem => (sect_lookup hmem).1⟩
  · exact h

theorem not_mem_of_lookup {x : Sect} {name : Str} (h : x.lookup name = none) : name ∉ x.names := by
  intro hmem
  obtain ⟨y, hy, hname⟩ := List.mem_map.1 hmem
  have hfalse := List.findIdx?_eq_none_iff.1 h y hy
  rw [decide_eq_true hname] at hfalse
  cases hfalse

/-- `uci_set` names a section that is not there, or an option that is made again. -/
theorem uciSet_unique (h : p.Unique) (hv : ptr.Valid p) {r : Package × Option Nat}
    (hp : uciSet internal p ptr = .ok r) : r.1.Unique ↔ ∀ n ∈ (Op.set ptr).naming p, n.Fresh p := by
  obtain ⟨q, value, hq, hvalue, -, hres⟩ := uciSet_cases hp
  have hin := (hv.expand hq).withOption
  have hdone : (q.withOption p).done = true := by
    have hexpand := expand_done hq
    unfold Ptr.withOption
    split <;> exact hexpand
  rw [Op.naming, hq]
  change _ ↔ ∀ n ∈ q.value >>= _, _
  rw [hvalue]
  change _ ↔ ∀ n ∈ if value = [] then none else _, _
  rcases hres with ⟨rfl, -, hr⟩ | ⟨rfl, -, hdel⟩ | ⟨hne, r', hset, -, hr⟩
  · rw [hr]
    exact iff_of_true h nofun
  · exact iff_of_true (uciDelete_unique h (fun _ hq' => hin.expand hdone hq') hdel) nofun
  · rw [if_neg hne]
    have hunique : r.1.Unique ↔ r'.1.Unique := by
      rw [hr]
      split_ifs
      · exact unique_record
      · exact Iff.rfl
    rw [hunique, setElement_unique h hin hset]
    have hinside := hv.expand hq
    obtain ⟨sect, option, v, s, o, done, complete⟩ := q
    cases s with
    | none =>
      cases sect with
      | none => cases o <;> cases hset
      | some name =>
        have hsame : (⟨some name, option, v, none, o, done, complete⟩ : Ptr).withOption p =
            ⟨some name, option, v, none, o, done, complete⟩ := by
          cases o <;> rfl
        rw [hsame, forall_naming (n := .sect none name) rfl]
        refine ⟨fun hall => hall.1 name rfl rfl, fun hn => ⟨fun name' _ hname => ?_, nofun, nofun⟩⟩
        exact Option.some.inj hname ▸ hn
    | some s =>
      obtain ⟨hs, -⟩ := hinside s rfl
      cases option with
      | none =>
        have hsame : (⟨sect, none, v, some s, o, done, complete⟩ : Ptr).withOption p =
            ⟨sect, none, v, some s, o, done, complete⟩ := by
          cases o <;> rfl
        rw [hsame]
        refine iff_of_true ⟨nofun, nofun, nofun⟩ ?_
        cases sect <;> cases o <;> exact nofun
      | some option =>
        cases o with
        | none =>
          refine iff_of_true ⟨nofun, ?_, ?_⟩ ?_
          · rintro s' o' option' hs' ho' hoption -
            obtain rfl := Option.some.inj hs'
            obtain rfl := Option.some.inj hoption
            exact others_lookup h hs ho'
          · rintro s' option' hs' ho' hoption
            obtain rfl := Option.some.inj hs'
            obtain rfl := Option.some.inj hoption
            exact not_mem_of_lookup ho'
          · cases sect <;> exact nofun
        | some o =>
          have hnaming : ∀ n : Naming, n ∈ (if ((p.sect s).opt o).value.replaced value then
              some (Naming.option s (some o) option) else none) ↔
              n = .option s (some o) option ∧ ((p.sect s).opt o).value.replaced value = true := by
            intro n
            split_ifs with hrep
            · exact ⟨fun hn => ⟨(Option.some.inj hn).symm, hrep⟩, fun hn => hn.1 ▸ rfl⟩
            · exact ⟨nofun, fun hn => absurd hn.2 hrep⟩
          have hfresh : (∀ n ∈ (if ((p.sect s).opt o).value.replaced value then
              some (Naming.option s (some o) option) else none), n.Fresh p) ↔
              (((p.sect s).opt o).value.replaced value = true →
                option ∉ others (p.sect s).names (some o)) :=
            ⟨fun hall hrep => hall _ ((hnaming _).2 ⟨rfl, hrep⟩), fun himp n hn => by
              obtain ⟨rfl, hrep⟩ := (hnaming n).1 hn
              exact himp hrep⟩
          refine Iff.trans ?_ (Iff.trans hfresh.symm (by cases sect <;> exact Iff.rfl))
          refine ⟨fun hall => hall.2.1 s o option rfl rfl rfl, fun himp => ⟨nofun, ?_, nofun⟩⟩
          rintro s' o' option' hs' ho' hoption
          obtain rfl := Option.some.inj hs'
          obtain rfl := Option.some.inj ho'
          obtain rfl := Option.some.inj hoption
          exact himp

end

/-- **Names stay unique** exactly when the name that the call gives is not that of another element. -/
theorem call_unique_iff {p p' : Package} (h : p.Unique) {internal : Bool} {op : Op} (hv : op.Valid p)
    (hp : op.call internal p = .ok p') : p'.Unique ↔ ∀ n ∈ op.naming p, n.Fresh p := by
  cases op with
  | set ptr =>
    obtain ⟨r, hset, hr⟩ : ∃ r, uciSet internal p ptr = .ok r ∧ r.1 = p' := by
      change (uciSet internal p ptr).map Prod.fst = .ok p' at hp
      cases hset : uciSet internal p ptr with
      | error e =>
        rw [hset] at hp
        cases hp
      | ok r =>
        rw [hset] at hp
        exact ⟨r, rfl, Except.ok.inj hp⟩
    exact hr ▸ uciSet_unique h hv hset
  | addSection type =>
    obtain rfl := Except.ok.inj hp
    exact uciAddSection_unique h type
  | addList ptr => exact uciAddList_unique h hv hp
  | delList ptr => exact iff_of_true (uciDelList_unique h hv hp) nofun
  | delete ptr => exact iff_of_true (uciDelete_unique h (fun _ => hv.expand) hp) nofun
  | rename ptr => exact uciRename_unique h hv hp
  | reorder s pos =>
    obtain rfl := Except.ok.inj hp
    exact iff_of_true (uciReorderSection_unique h hv pos) nofun

/-- Two sections; the first gets the name of the second. -/
theorem rename_to_existing :
    ∃ p : Package, p.Unique ∧ ∃ ptr : Ptr, ptr.Valid p ∧
      ∃ p', uciRename false p ptr = .ok p' ∧ ¬ p'.Unique := by
  refine ⟨{ name := [112], sections := [{ name := [97], type := [116] }, { name := [98], type := [116] }] },
    ⟨by decide, by decide⟩, { sect := some [97], value := some [98] }, ⟨nofun, nofun⟩, _, rfl, ?_⟩
  exact fun h => absurd h.sections (by decide)

/-- `uci_rename` with a name that is not used. -/
theorem rename_to_fresh :
    let p : Package := { name := [112], sections := [{ name := [97], type := [116] }] }
    let p' : Package := { name := [112], sections := [{ name := [98], type := [116] }] }
    uciRename false p { sect := some [97], value := some [98] } = .ok p' ∧ p'.Unique := by
  intro p p'
  refine ⟨rfl, (@call_unique_iff p p' ⟨by decide, by decide⟩ false
    (.rename { sect := some [97], value := some [98] }) ⟨nofun, nofun⟩ rfl).2 (by decide)⟩

/-! ## The type of a section -/

/-- Only the type of the section is another one; `p->delta` is not looked at. -/
structure OnlyType (p p' : Package) (s : Nat) (type : Str) : Prop where
  sections : p'.sections = p.sections.modify s fun x => { x with type := type }
  name : p'.name = p.name
  nSection : p'.nSection = p.nSection
  hasDelta : p'.hasDelta = p.hasDelta

section
variable {p : Package} {s : Nat} {value : Str}

theorem setType_iff (hs : s < p.sections.length) : OnlyType p (setType p s value) s value ↔
    (p.sect s).type.length = value.length ∨ (p.sect s).anonymous = (p.sect s).name.isEmpty := by
  unfold setType
  split_ifs with hlen
  · exact iff_of_true ⟨rfl, rfl, rfl, rfl⟩ (.inl hlen)
  · rw [or_iff_right hlen]
    have hsections : (p.modSect s fun x => ⟨x.name, value, x.name.isEmpty, x.options⟩).sections = _ :=
      sections_modSect hs _
    constructor
    · intro h
      have hsame := hsections.symm.trans (h.sections.trans (modify_getD hs _ ⟨[], [], false, []⟩))
      have hget := congrArg (fun l => l[s]?.map Sect.anonymous) hsame
      simp only [List.getElem?_set_self hs, Option.map_some, Option.some.injEq] at hget
      exact hget.symm
    · intro hanon
      refine ⟨hsections.trans ?_, rfl, rfl, rfl⟩
      rw [modify_getD hs _ ⟨[], [], false, []⟩, ← hanon]
      rfl

/-- The name of a section that the pointer has is filled in. -/
theorem expand_sect_name {ptr q : Ptr} {complete : Bool} (hq : uciExpandPtr p ptr complete = .ok q)
    (hs : q.s = some s) : ∃ name, q.sect = some name := by
  unfold uciExpandPtr at hq
  dsimp only at hq
  generalize (if ptr.done then ptr else uciLookupPtr p ptr) = r at hq
  split_ifs at hq
  obtain rfl := Except.ok.inj hq
  dsimp only at hs ⊢
  rw [hs]
  cases r.sect with
  | none => exact ⟨_, rfl⟩
  | some name => exact ⟨name, rfl⟩

/-- `uci_set` of an existing section. -/
theorem uciSet_type {internal : Bool} {ptr q : Ptr} (hq : uciExpandPtr p ptr false = .ok q)
    (hs : q.s = some s) (hoption : q.option = none) (hvalue : q.value = some value)
    (hvalid : uciValidateType value = true) :
    uciSet internal p ptr = .ok (if (p.sect s).type = value then (p, some s)
      else ((setType p s value).record internal
        { cmd := .change, sect := q.sect.getD [], value := some value }, some s)) := by
  have hne : value ≠ [] := by
    rintro rfl
    cases hvalid
  obtain ⟨name, hsect⟩ := expand_sect_name hq hs
  have helement : setElement p q value =
      if (p.sect s).type = value then .ok (p, some s, false)
      else .ok (setType p s value, some s, true) := by
    obtain ⟨sect, option, v, s', o, done, complete⟩ := q
    subst hs hoption hsect
    cases o <;> rfl
  obtain ⟨sect, option, v, s', o, done, complete⟩ := q
  subst hs hoption hsect hvalue
  unfold uciSet
  rw [hq]
  simp only [bind, Except.bind]
  rw [if_neg (by simp), if_neg (by simp [hvalid])]
  have hrest : ∀ q' : Ptr, q' = ⟨some name, none, some value, some s, o, done, complete⟩ →
      (if value = [] then
        if q'.complete = false then (pure (p, q'.s) : Except Err (Package × Option Nat))
        else do return (← uciDelete false p q', if q'.option = none then none else q'.s)
      else do
        let r ← setElement p q' value
        return (if r.2.2 then r.1.record internal
            { cmd := .change, sect := q'.sect.getD [], option := q'.option, value := some value }
          else r.1, r.2.1)) = .ok (if (p.sect s).type = value then (p, some s)
      else ((setType p s value).record internal
        { cmd := .change, sect := name, value := some value }, some s)) := by
    rintro q' rfl
    rw [if_neg hne, helement]
    split_ifs <;> rfl
  refine hrest _ ?_
  cases o <;> rfl

/-- **A new type**: everything else of the package stays, but a section that is made again since the
    type has another length is not anonymous any more. -/
theorem uciSet_type_iff {internal : Bool} {ptr q : Ptr} (hq : uciExpandPtr p ptr false = .ok q)
    (hs : q.s = some s) (hlt : s < p.sections.length) (hoption : q.option = none)
    (hvalue : q.value = some value) (hvalid : uciValidateType value = true) :
    ∃ r, uciSet internal p ptr = .ok r ∧ (OnlyType p r.1 s value ↔
      (p.sect s).type.length = value.length ∨ (p.sect s).anonymous = (p.sect s).name.isEmpty) := by
  refine ⟨_, uciSet_type hq hs hoption hvalue hvalid, ?_⟩
  by_cases htype : (p.sect s).type = value
  · rw [if_pos htype]
    refine iff_of_true ⟨?_, rfl, rfl, rfl⟩ (.inl (congrArg List.length htype))
    rw [modify_getD hlt _ ⟨[], [], false, []⟩, ← htype]
    unfold Package.sect
    rw [List.getD_eq_getElem _ _ hlt, List.set_getElem_self]
  · rw [if_neg htype, ← setType_iff hlt]
    have hfields : ∀ p' : Package, ∀ d, OnlyType p (p'.record internal d) s value ↔
        OnlyType p p' s value := by
      intro p' d
      unfold Package.record
      split_ifs
      · exact ⟨fun h => ⟨h.sections, h.name, h.nSection, h.hasDelta⟩,
          fun h => ⟨h.sections, h.name, h.nSection, h.hasDelta⟩⟩
      · exact Iff.rfl
    exact hfields _ _

end

/-- An anonymous section whose type gets longer. -/
theorem anonymous_type_longer :
    let p : Package := { name := [112], sections := [{ name := [99], type := [97], anonymous := true }] }
    ∃ r, uciSet false p { sect := some [99], value := some [97, 98] } = .ok r ∧
      ¬ OnlyType p r.1 0 [97, 98] := by
  refine ⟨_, rfl, fun h => ?_⟩
  exact absurd h.sections (by decide)

/-- A named section. -/
theorem named_type_longer :
    let p : Package := { name := [112], sections := [{ name := [99], type := [97] }] }
    ∃ r, uciSet false p { sect := some [99], value := some [97, 98] } = .ok r ∧
      OnlyType p r.1 0 [97, 98] := by
  intro p
  obtain ⟨r, hr, hiff⟩ := @uciSet_type_iff p 0 [97, 98] false { sect := some [99], value := some [97, 98] }
    _ rfl rfl (by decide) rfl rfl (by decide)
  exact ⟨r, hr, hiff.2 (.inr rfl)⟩

end Uci
