/-
  The calls that change a package, and the changes that they record: to read the saved changes has
  the effect of the calls, for the calls that are recorded without ambiguity.
-/
import IotLib.Lib.Run
import IotLib.Uci.DeltaLex

namespace Uci

open Exec

/-! ## Calls -/

/-- A call of the API, which names its element; a section is reordered by its position. -/
inductive Edit where
  | addSection (type : Str)
  | set (sect : Str) (option : Option Str) (value : Str)
  | addList (sect option value : Str)
  | delList (sect option value : Str)
  | delete (sect : Str) (option : Option Str)
  | rename (sect : Str) (option : Option Str) (name : Str)
  | reorder (s : Nat) (pos : Int)

/-- A call that is not an internal one. -/
def Edit.run (p : Package) : Edit → Except Err Package
  | .addSection type => .ok (uciAddSection false p type)
  | .set sect option value =>
    (uciSet false p { sect := some sect, option := option, value := some value }).map Prod.fst
  | .addList sect option value =>
    uciAddList false p { sect := some sect, option := some option, value := some value }
  | .delList sect option value =>
    uciDelList false p { sect := some sect, option := some option, value := some value }
  | .delete sect option => uciDelete false p { sect := some sect, option := option }
  | .rename sect option name =>
    uciRename false p { sect := some sect, option := option, value := some name }
  | .reorder s pos => .ok (uciReorderSection false p s pos)

/-- The arguments are valid: names, types and text as libuci checks them, a
    section of the package, and a number of type `int`. -/
def Edit.Ok (p : Package) : Edit → Prop
  | .addSection type => uciValidateType type = true
  | .set sect option value => uciValidateName sect = true ∧ option.all uciValidateName = true ∧
      uciValidateText value = true
  | .addList sect option value | .delList sect option value => uciValidateName sect = true ∧
      uciValidateName option = true ∧ uciValidateText value = true
  | .delete sect option => uciValidateName sect = true ∧ option.all uciValidateName = true
  | .rename sect option name => uciValidateName sect = true ∧ option.all uciValidateName = true ∧
      uciValidateName name = true
  | .reorder s pos => s < p.sections.length ∧ uciValidateName (p.sect s).name = true ∧
      -2147483648 ≤ pos ∧ pos < 2147483648

instance (p : Package) (e : Edit) : Decidable (e.Ok p) :=
  match e with
  | .addSection _ => inferInstanceAs (Decidable (_ = _))
  | .set _ _ _ | .addList _ _ _ | .delList _ _ _ | .rename _ _ _ =>
    inferInstanceAs (Decidable (_ ∧ _ ∧ _))
  | .delete _ _ => inferInstanceAs (Decidable (_ ∧ _))
  | .reorder _ _ => inferInstanceAs (Decidable (_ ∧ _ ∧ _ ∧ _))

/-- Whether the option already has the value, or the section the type. -/
def Package.has (p : Package) (sect : Str) (option : Option Str) (value : Str) : Bool :=
  match p.lookup sect, option with
  | none, _ => false
  | some i, none => (p.sect i).type = value
  | some i, some name =>
    match (p.sect i).lookup name with
    | none => false
    | some j => ((p.sect i).opt j).value = .string value

/-- The call is recorded without ambiguity: the line of a new value does not look
    like that of another command, the name that is made up for a section is not
    in use, and a section that is moved is found by its name. -/
def Edit.Safe (p : Package) : Edit → Prop
  | .addSection type => p.lookup (uciFixupSection (p.nSection + 1) type) = none
  | .set sect option value =>
    p.name.head? ≠ some minus ∨ value = [] ∨ p.has sect option value = true
  | .reorder s pos =>
    p.lookup (p.sect s).name = some s ∨ (uciListSetPos p.sections s pos).2 = false
  | _ => True

instance (p : Package) (e : Edit) : Decidable (e.Safe p) :=
  match e with
  | .addSection _ => inferInstanceAs (Decidable (_ = _))
  | .set _ _ _ => inferInstanceAs (Decidable (_ ∨ _ ∨ _))
  | .reorder _ _ => inferInstanceAs (Decidable (_ ∨ _))
  | .addList _ _ _ | .delList _ _ _ | .rename _ _ _ | .delete _ _ => inferInstanceAs (Decidable True)

/-! ## What is recorded -/

/-- A package with another record of changes. -/
def Package.relog (p : Package) (b : Bool) (log : List Delta) : Package :=
  { p with hasDelta := b, delta := log }

/-- Either nothing was changed, or the change was recorded, and can be read and done again. -/
def Recorded (p p' : Package) : Prop :=
  p' = p ∨ ∃ d : Delta, d.Ok p.name ∧ p'.name = p.name ∧ p'.hasDelta = true ∧
    p'.delta = p.delta ++ [d] ∧
    ∀ b log, runDelta d.cmd d.ptr (p.relog b log) = .ok (p'.relog b log)

section
variable {p p' : Package} {sect : Str} {value : Option Str} {i j : Nat} {name : Str}

theorem record_public (hp : p.hasDelta = true) (d : Delta) :
    p.record false d = { p with delta := p.delta ++ [d] } := by
  rw [Package.record, if_pos ⟨rfl, hp⟩]

/-! ## Finding the element -/

theorem expand_none (option : Option Str) (complete : Bool) (h : p.lookup sect = none) :
    uciExpandPtr p { sect := some sect, option := option, value := value } complete =
      if complete then .error .notfound
      else .ok { sect := some sect, option := option, value := value, done := true } := by
  cases complete <;> cases option <;> simp [uciExpandPtr, uciLookupPtr, h]

theorem expand_sect (complete : Bool) (h : p.lookup sect = some i) :
    uciExpandPtr p { sect := some sect, value := value } complete =
      .ok { sect := some sect, value := value, s := some i, done := true, complete := true } := by
  simp [uciExpandPtr, uciLookupPtr, h]

theorem expand_new (complete : Bool) (h : p.lookup sect = some i)
    (ho : (p.sect i).lookup name = none) :
    uciExpandPtr p { sect := some sect, option := some name, value := value } complete =
      if complete then .error .notfound
      else .ok { sect := some sect, option := some name, value := value, s := some i,
                 done := true } := by
  cases complete <;> simp [uciExpandPtr, uciLookupPtr, h, ho]

theorem expand_option (complete : Bool) (h : p.lookup sect = some i)
    (ho : (p.sect i).lookup name = some j) :
    uciExpandPtr p { sect := some sect, option := some name, value := value } complete =
      .ok { sect := some sect, option := some name, value := value, s := some i, o := some j,
            done := true, complete := true } := by
  simp [uciExpandPtr, uciLookupPtr, h, ho]

@[simp] theorem relog_sect (b : Bool) (log : List Delta) (i : Nat) :
    (p.relog b log).sect i = p.sect i := rfl

/-! ## Each call -/

/-- A printable string is a text. -/
theorem text_of_validate {str : Str} {name package : Bool}
    (h : uciValidateStr str name package = true) : uciValidateText str = true := by
  simp only [uciValidateStr, Bool.and_eq_true, List.all_eq_true] at h
  rw [uciValidateText, List.all_eq_true]
  intro b hb
  have hall := h.2 b hb
  have hge : ¬ b < 32 := by
    intro hlt
    have h1 : isalnum b = false := by
      simp only [isalnum, UInt8.lt_iff_toNat_lt, UInt8.le_iff_toNat_le, Bool.or_eq_false_iff,
        Bool.and_eq_false_iff, decide_eq_false_iff_not, UInt8.reduceToNat] at hlt ⊢
      omega
    have h2 : b ≠ underscore := by
      rintro rfl
      exact absurd hlt (by decide)
    have h3 : b ≠ minus := by
      rintro rfl
      exact absurd hlt (by decide)
    have h4 : b < 33 := UInt8.lt_trans hlt (by decide)
    simp [h1, h2, h3, h4] at hall
  simp [hge]

theorem rename_recorded {option : Option Str} (hp : p.hasDelta = true)
    (hok : (Edit.rename sect option name).Ok p)
    (h : (Edit.rename sect option name).run p = .ok p') : Recorded p p' := by
  obtain ⟨hsect, hoption, hname⟩ := hok
  have hd : ({ cmd := .rename, sect := sect, option := option, value := some name } : Delta).Ok
      p.name :=
    ⟨⟨hsect, hoption, text_of_validate hname, by simp, by simp, fun _ => hname, by simp⟩, by simp⟩
  simp only [Edit.run, uciRename] at h
  cases hs : p.lookup sect with
  | none =>
    rw [expand_none _ _ hs] at h
    cases h
  | some i =>
    cases option with
    | none =>
      rw [expand_sect _ hs] at h
      cases h
      rw [record_public hp]
      refine Or.inr ⟨_, hd, rfl, hp, rfl, fun b log => ?_⟩
      simp only [runDelta, Delta.ptr, uciRename, expand_sect true (p := p.relog b log) hs]
      rfl
    | some option =>
      cases ho : (p.sect i).lookup option with
      | none =>
        rw [expand_new _ hs ho] at h
        cases h
      | some j =>
        rw [expand_option _ hs ho] at h
        cases h
        rw [record_public hp]
        refine Or.inr ⟨_, hd, rfl, hp, rfl, fun b log => ?_⟩
        simp only [runDelta, Delta.ptr, uciRename, expand_option true (p := p.relog b log) hs ho]
        rfl

theorem delete_ok (name : Str) {option : Option Str} (hsect : uciValidateName sect = true)
    (hoption : option.all uciValidateName = true) :
    ({ cmd := .remove, sect := sect, option := option } : Delta).Ok name :=
  ⟨⟨hsect, hoption, rfl, by simp, by simp, by simp, by simp⟩, by simp⟩

theorem delete_recorded {option : Option Str} (hp : p.hasDelta = true)
    (hok : (Edit.delete sect option).Ok p) (h : (Edit.delete sect option).run p = .ok p') :
    Recorded p p' := by
  have hd := delete_ok p.name hok.1 hok.2
  simp only [Edit.run, uciDelete] at h
  cases hs : p.lookup sect with
  | none =>
    rw [expand_none _ _ hs] at h
    cases h
  | some i =>
    cases option with
    | none =>
      rw [expand_sect _ hs] at h
      cases h
      rw [record_public hp]
      refine Or.inr ⟨_, hd, rfl, hp, rfl, fun b log => ?_⟩
      simp only [runDelta, Delta.ptr, uciDelete, expand_sect true (p := p.relog b log) hs]
      rfl
    | some option =>
      cases ho : (p.sect i).lookup option with
      | none =>
        rw [expand_new _ hs ho] at h
        cases h
      | some j =>
        rw [expand_option _ hs ho] at h
        cases h
        rw [record_public hp]
        refine Or.inr ⟨_, hd, rfl, hp, rfl, fun b log => ?_⟩
        simp only [runDelta, Delta.ptr, uciDelete, expand_option true (p := p.relog b log) hs ho]
        rfl

theorem addList_recorded {option value : Str} (hp : p.hasDelta = true)
    (hok : (Edit.addList sect option value).Ok p)
    (h : (Edit.addList sect option value).run p = .ok p') : Recorded p p' := by
  obtain ⟨hsect, hoption, hvalue⟩ := hok
  have hd : ({ cmd := .listAdd, sect := sect, option := some option, value := some value } :
      Delta).Ok p.name :=
    ⟨⟨hsect, hoption, hvalue, by simp, by simp, by simp, by simp⟩, by simp⟩
  simp only [Edit.run, uciAddList] at h
  cases hs : p.lookup sect with
  | none =>
    rw [expand_none _ _ hs] at h
    cases h
  | some i =>
    cases ho : (p.sect i).lookup option with
    | none =>
      rw [expand_new _ hs ho] at h
      cases h
      rw [record_public (by exact hp)]
      refine Or.inr ⟨_, hd, rfl, hp, rfl, fun b log => ?_⟩
      simp only [runDelta, Delta.ptr, uciAddList, expand_new false (p := p.relog b log) hs ho]
      rfl
    | some j =>
      rw [expand_option _ hs ho] at h
      cases h
      rw [record_public (by exact hp)]
      refine Or.inr ⟨_, hd, rfl, hp, rfl, fun b log => ?_⟩
      simp only [runDelta, Delta.ptr, uciAddList, expand_option false (p := p.relog b log) hs ho]
      rfl

theorem delList_recorded {option value : Str} (hp : p.hasDelta = true)
    (hok : (Edit.delList sect option value).Ok p)
    (h : (Edit.delList sect option value).run p = .ok p') : Recorded p p' := by
  obtain ⟨hsect, hoption, hvalue⟩ := hok
  have hd : ({ cmd := .listDel, sect := sect, option := some option, value := some value } :
      Delta).Ok p.name :=
    ⟨⟨hsect, hoption, hvalue, by simp, by simp, by simp, by simp⟩, by simp⟩
  simp only [Edit.run, uciDelList] at h
  cases hs : p.lookup sect with
  | none =>
    rw [expand_none _ _ hs] at h
    cases h
  | some i =>
    cases ho : (p.sect i).lookup option with
    | none =>
      rw [expand_new _ hs ho] at h
      cases h
      exact Or.inl rfl
    | some j =>
      rw [expand_option _ hs ho] at h
      simp only [bind, Except.bind] at h
      cases hv : ((p.sect i).opt j).value with
      | string str =>
        rw [hv] at h
        cases h
        exact Or.inl rfl
      | list items =>
        rw [hv] at h
        cases h
        rw [record_public hp]
        refine Or.inr ⟨_, hd, rfl, hp, rfl, fun b log => ?_⟩
        simp only [runDelta, Delta.ptr, uciDelList, expand_option false (p := p.relog b log) hs ho,
          bind, Except.bind, relog_sect, hv]
        rfl

/-! ## `uci_set` -/

section
variable (internal : Bool) {v : Str}

theorem uciSet_newSect (hs : p.lookup sect = none) (hne : v ≠ [])
    (ht : uciValidateType v = true) :
    uciSet internal p { sect := some sect, value := some v } =
      .ok (Package.record { p with
          sections := p.sections ++ [{ name := sect, type := v, anonymous := sect.isEmpty }]
          nSection := p.nSection + 1 }
        internal { cmd := .change, sect := sect, value := some v }, some p.sections.length) := by
  simp [uciSet, expand_none _ _ hs, setElement, hne, ht, bind, Except.bind, pure, Except.pure]

theorem uciSet_sect (hs : p.lookup sect = some i) (hne : v ≠ []) (ht : uciValidateType v = true) :
    uciSet internal p { sect := some sect, value := some v } =
      .ok (if (p.sect i).type = v then p else
        (setType p i v).record internal { cmd := .change, sect := sect, value := some v },
        some i) := by
  by_cases heq : (p.sect i).type = v <;>
    simp [uciSet, expand_sect _ hs, setElement, hne, ht, heq, bind, Except.bind, pure, Except.pure]

theorem uciSet_newOpt (hs : p.lookup sect = some i) (ho : (p.sect i).lookup name = none)
    (hne : v ≠ []) :
    uciSet internal p { sect := some sect, option := some name, value := some v } =
      .ok (Package.record
        (p.modSect i fun x => { x with options := x.options ++ [⟨name, .string v⟩] })
        internal { cmd := .change, sect := sect, option := some name, value := some v },
        some i) := by
  simp [uciSet, expand_new _ hs ho, setElement, hne, ho, bind, Except.bind, pure, Except.pure]

theorem uciSet_option (hs : p.lookup sect = some i) (ho : (p.sect i).lookup name = some j)
    (hne : v ≠ []) :
    uciSet internal p { sect := some sect, option := some name, value := some v } =
      .ok (if ((p.sect i).opt j).value = .string v then p else
        (setOption p i j name v).record internal
          { cmd := .change, sect := sect, option := some name, value := some v }, some i) := by
  by_cases heq : ((p.sect i).opt j).value = .string v <;>
    simp [uciSet, expand_option _ hs ho, setElement, hne, heq, bind, Except.bind, pure, Except.pure]

end

theorem setType_relog (v : Str) (b : Bool) (log : List Delta) :
    setType (p.relog b log) i v = (setType p i v).relog b log := by
  rw [setType, setType, relog_sect]
  split_ifs <;> rfl

theorem setOption_relog (v : Str) (b : Bool) (log : List Delta) :
    setOption (p.relog b log) i j name v = (setOption p i j name v).relog b log := by
  rw [setOption, setOption, relog_sect]
  cases ((p.sect i).opt j).value with
  | string str =>
    simp only
    split_ifs <;> rfl
  | list items => rfl

/-- An empty value deletes the element. -/
theorem uciSet_empty {option : Option Str} (h : (Edit.set sect option []).run p = .ok p') :
    p' = p ∨ (Edit.delete sect option).run p = .ok p' := by
  simp only [Edit.run, uciSet] at h
  cases hs : p.lookup sect with
  | none =>
    rw [expand_none _ _ hs] at h
    cases option with
    | none =>
      left
      simpa [bind, Except.bind, Except.map, pure, Except.pure] using h.symm
    | some option => simp [bind, Except.bind, Except.map, throw, throwThe, MonadExceptOf.throw] at h
  | some i =>
    cases option with
    | none =>
      right
      rw [expand_sect _ hs] at h
      rw [← h]
      simp only [Edit.run, uciDelete, expand_sect _ hs]
      rfl
    | some option =>
      cases ho : (p.sect i).lookup option with
      | none =>
        left
        rw [expand_new _ hs ho] at h
        simpa [bind, Except.bind, Except.map, pure, Except.pure, ho] using h.symm
      | some j =>
        right
        rw [expand_option _ hs ho] at h
        rw [← h]
        simp only [Edit.run, uciDelete, expand_option _ hs ho]
        cases hv : ((p.sect i).opt j).value <;>
          simp [uciExpandPtr, Ptr.item, hv, bind, Except.bind, Except.map, pure, Except.pure]

/-- A change that is recorded at the end. -/
theorem Recorded.of_record {q : Package} {d : Delta} (hname : q.name = p.name)
    (hp : q.hasDelta = true) (hdelta : q.delta = p.delta) (hd : d.Ok p.name)
    (hrun : ∀ b log, runDelta d.cmd d.ptr (p.relog b log) = .ok (q.relog b log)) :
    Recorded p (q.record false d) := by
  rw [record_public hp]
  exact Or.inr ⟨d, hd, hname, hp, by rw [hdelta], hrun⟩

theorem setType_fields (p : Package) (i : Nat) (v : Str) : (setType p i v).name = p.name ∧
    (setType p i v).hasDelta = p.hasDelta ∧ (setType p i v).delta = p.delta := by
  rw [setType]
  split_ifs <;> exact ⟨rfl, rfl, rfl⟩

theorem setOption_fields (p : Package) (i j : Nat) (name v : Str) :
    (setOption p i j name v).name = p.name ∧
    (setOption p i j name v).hasDelta = p.hasDelta ∧ (setOption p i j name v).delta = p.delta := by
  rw [setOption]
  cases ((p.sect i).opt j).value with
  | string str =>
    simp only
    split_ifs <;> exact ⟨rfl, rfl, rfl⟩
  | list items => exact ⟨rfl, rfl, rfl⟩

theorem uciSet_validates {v : Str} (hne : v ≠ []) (h : (Edit.set sect none v).run p = .ok p') :
    uciValidateType v = true := by
  by_contra ht
  rw [Bool.not_eq_true] at ht
  cases hs : p.lookup sect with
  | none =>
    simp [Edit.run, uciSet, expand_none _ _ hs, hne, ht, bind, Except.bind, Except.map, throw,
      throwThe, MonadExceptOf.throw] at h
  | some i =>
    simp [Edit.run, uciSet, expand_sect _ hs, hne, ht, bind, Except.bind, Except.map, throw,
      throwThe, MonadExceptOf.throw] at h

theorem set_recorded {option : Option Str} {v : Str} (hp : p.hasDelta = true)
    (hok : (Edit.set sect option v).Ok p) (hsafe : (Edit.set sect option v).Safe p)
    (h : (Edit.set sect option v).run p = .ok p') : Recorded p p' := by
  obtain ⟨hsect, hoption, hvalue⟩ := hok
  by_cases hne : v = []
  · subst hne
    rcases uciSet_empty h with rfl | h
    · exact Or.inl rfl
    · exact delete_recorded hp ⟨hsect, hoption⟩ h
  -- a change can be read back unless the element has the value
  have hd : p.has sect option v = false →
      ({ cmd := .change, sect := sect, option := option, value := some v } : Delta).Ok p.name := by
    intro hhas
    refine ⟨⟨hsect, hoption, hvalue, by simp, by simp, by simp, by simp⟩, fun _ => ?_⟩
    exact hsafe.resolve_right (by simp [hne, hhas])
  cases option with
  | none =>
    have ht := uciSet_validates hne h
    rw [Edit.run] at h
    cases hs : p.lookup sect with
    | none =>
      rw [uciSet_newSect false hs hne ht] at h
      cases h
      refine .of_record rfl hp rfl (hd (by simp [Package.has, hs])) fun b log => ?_
      simp only [runDelta, Delta.ptr, uciSet_newSect true (p := p.relog b log) hs hne ht,
        record_internal]
      rfl
    | some i =>
      rw [uciSet_sect false hs hne ht] at h
      cases h
      by_cases heq : (p.sect i).type = v
      · exact Or.inl (if_pos heq)
      · obtain ⟨h1, h2, h3⟩ := setType_fields p i v
        simp only [if_neg heq]
        refine .of_record h1 (h2.trans hp) h3 (hd (by simp [Package.has, hs, heq])) fun b log => ?_
        simp only [runDelta, Delta.ptr, uciSet_sect true (p := p.relog b log) hs hne ht,
          record_internal, relog_sect, if_neg heq, setType_relog]
        rfl
  | some option =>
    rw [Edit.run] at h
    cases hs : p.lookup sect with
    | none =>
      simp [uciSet, expand_none _ _ hs, bind, Except.bind, Except.map, throw, throwThe,
        MonadExceptOf.throw] at h
    | some i =>
      cases ho : (p.sect i).lookup option with
      | none =>
        rw [uciSet_newOpt false hs ho hne] at h
        cases h
        refine .of_record rfl hp rfl (hd (by simp [Package.has, hs, ho])) fun b log => ?_
        simp only [runDelta, Delta.ptr, uciSet_newOpt true (p := p.relog b log) hs ho hne,
          record_internal]
        rfl
      | some j =>
        rw [uciSet_option false hs ho hne] at h
        cases h
        by_cases heq : ((p.sect i).opt j).value = .string v
        · exact Or.inl (if_pos heq)
        · obtain ⟨h1, h2, h3⟩ := setOption_fields p i j option v
          simp only [if_neg heq]
          refine .of_record h1 (h2.trans hp) h3 (hd (by simp [Package.has, hs, ho, heq]))
            fun b log => ?_
          simp only [runDelta, Delta.ptr, uciSet_option true (p := p.relog b log) hs ho hne,
            record_internal, relog_sect, if_neg heq, setOption_relog]
          rfl

/-! ## Sections -/

/-- A name that is made up is a valid one. -/
theorem validateName_fixup (n : Nat) (type : Str) :
    uciValidateName (uciFixupSection n type) = true := by
  have halnum : ∀ {b : UInt8}, (isdigit b = true ∨ 97 ≤ b ∧ b ≤ 102) → isalnum b = true := by
    intro b hb
    simp only [isdigit, isalnum, UInt8.le_iff_toNat_le, Bool.or_eq_true, Bool.and_eq_true,
      decide_eq_true_eq, UInt8.reduceToNat] at hb ⊢
    omega
  have hall : ∀ b ∈ uciFixupSection n type, isalnum b = true := by
    intro b hb
    simp only [uciFixupSection, List.mem_append, List.mem_cons, List.not_mem_nil, or_false] at hb
    rcases hb with ((rfl | rfl | rfl) | hb) | hb
    · decide
    · decide
    · decide
    · exact halnum (hex_form _ _ b hb)
    · exact halnum (hex_form _ _ b hb)
  rw [uciValidateName, uciValidateStr, Bool.and_eq_true, List.all_eq_true]
  exact ⟨rfl, fun b hb => by rw [hall b hb]; rfl⟩

theorem addSection_recorded {type : Str} (hp : p.hasDelta = true)
    (hok : (Edit.addSection type).Ok p) (hsafe : (Edit.addSection type).Safe p) :
    Recorded p (uciAddSection false p type) := by
  have htype : uciValidateType type = true := hok
  have hne : type ≠ [] := by
    rintro rfl
    exact absurd htype (by decide)
  have hname := validateName_fixup (p.nSection + 1) type
  refine .of_record rfl hp rfl
    ⟨⟨hname, rfl, text_of_validate hok, by simp, by simp, by simp, by simp⟩, by simp⟩ fun b log => ?_
  have hs : (p.relog b log).lookup (uciFixupSection (p.nSection + 1) type) = none := hsafe
  simp only [runDelta, Delta.ptr, uciSet_newSect true hs hne hok, record_internal]
  simp only [bind, Except.bind, if_pos, Package.modSect, modify_last]
  rfl

/-! ## Moving a section -/

/-- The section stays where it is. -/
theorem uciListSetPos_same {l : List Sect} {s : Nat} {pos : Int} (hs : s < l.length)
    (h : (uciListSetPos l s pos).2 = false) : (uciListSetPos l s pos).1 = l := by
  have hmin : min pos.toNat (l.eraseIdx s).length = s := by
    simpa [uciListSetPos] using h
  have htake : (l.eraseIdx s).take s = l.take s := by
    rw [List.eraseIdx_eq_take_drop_succ, List.take_append_of_le_length (by simp; omega),
      List.take_take, min_self]
  have hdrop : (l.eraseIdx s).drop s = l.drop (s + 1) := by
    rw [List.eraseIdx_eq_take_drop_succ, List.drop_append]
    simp [Nat.min_eq_left hs.le]
  simp only [uciListSetPos, hmin, htake, hdrop]
  have hget : l.getD s ⟨[], [], false, []⟩ = l[s] := by simp [hs]
  rw [hget, ← List.drop_eq_getElem_cons hs, List.take_append_drop]

theorem decimal_digits (n : Nat) : ∀ b ∈ decimal n, isdigit b = true := by
  intro b hb
  rw [decimal] at hb
  split_ifs at hb
  · rw [List.mem_singleton.1 hb]
    rfl
  · obtain ⟨d, hd, rfl⟩ := List.mem_map.1 (List.mem_reverse.1 hb)
    have hlt : d < 10 := Nat.digits_lt_base (by omega) hd
    have hall : ∀ d < 10, isdigit (UInt8.ofNat (48 + d)) = true := by decide
    exact hall d hlt

theorem decimal_ne_nil (n : Nat) : decimal n ≠ [] := by
  rw [decimal]
  split_ifs with hn
  · simp
  · simpa [Nat.digits_eq_nil_iff_eq_zero] using hn

theorem scanNat_decimal (n : Nat) : scanNat (decimal n) = n := by
  rw [scanNat, List.takeWhile_eq_self_iff.2 (decimal_digits n), decimal]
  split_ifs with hn
  · rw [hn]
    rfl
  · have hfold : ∀ l : List Nat, (∀ d ∈ l, d < 10) →
        (l.map fun d => UInt8.ofNat (48 + d)).foldr (fun c n => 10 * n + (c.toNat - 48)) 0 =
          Nat.ofDigits 10 l := by
      intro l
      induction l with
      | nil => intros; rfl
      | cons d l ih =>
        intro hl
        have hd : (UInt8.ofNat (48 + d)).toNat - 48 = d := by
          have := hl d (by simp)
          simp
          omega
        rw [List.map_cons, List.foldr_cons, ih fun d hd => hl d (by simp [hd]), hd,
          Nat.ofDigits_cons]
        ring
    rw [List.foldl_reverse, hfold _ fun d hd => Nat.digits_lt_base (by omega) hd,
      Nat.ofDigits_digits]

theorem scanInt_sprintInt (x : Int) : scanInt (sprintInt x) = some x := by
  obtain ⟨b, l, hcons⟩ := List.exists_cons_of_ne_nil (decimal_ne_nil x.natAbs)
  have hb : isdigit b = true := decimal_digits x.natAbs b (by simp [hcons])
  have hspace : isspace b = false := by
    simp only [isdigit, isspace, Bool.or_eq_false_iff, Bool.and_eq_true, Bool.and_eq_false_iff,
      decide_eq_true_eq, decide_eq_false_iff_not, beq_eq_false_iff_ne, ne_eq,
      UInt8.le_iff_toNat_le, ← UInt8.toNat_inj, UInt8.reduceToNat] at hb ⊢
    omega
  have hsign : b ≠ minus ∧ b ≠ 43 := by
    constructor <;>
    · rintro rfl
      exact absurd hb (by decide)
  have hscan := scanNat_decimal x.natAbs
  rw [hcons] at hscan
  rw [sprintInt, hcons]
  split_ifs with hneg
  · have hminus : isspace minus = false := rfl
    simp [scanInt, hminus, hb, hscan, abs_of_neg hneg]
  · simp [scanInt, hspace, hb, hscan, hsign, abs_of_nonneg (not_lt.1 hneg)]

theorem strtoulInt_sprintInt {x : Int} (h1 : -2147483648 ≤ x) (h2 : x < 2147483648) :
    strtoulInt (sprintInt x) = x := by
  simp only [strtoulInt, scanInt_sprintInt]
  rw [if_neg (by omega)]
  exact Int.bmod_eq_of_le (by omega) (by omega)

theorem text_sprintInt (x : Int) : uciValidateText (sprintInt x) = true := by
  have hdigit : ∀ b ∈ decimal x.natAbs, ¬ b < 32 := by
    intro b hb hlt
    have := decimal_digits _ b hb
    simp only [isdigit, Bool.and_eq_true, decide_eq_true_eq, UInt8.le_iff_toNat_le,
      UInt8.lt_iff_toNat_lt, UInt8.reduceToNat] at this hlt
    omega
  have hall : ∀ b ∈ sprintInt x, ¬ b < 32 := by
    intro b hb
    rw [sprintInt] at hb
    split_ifs at hb
    · rcases List.mem_cons.1 hb with rfl | hb
      · decide
      · exact hdigit b hb
    · exact hdigit b hb
  rw [uciValidateText, List.all_eq_true]
  exact fun b hb => by simp [hall b hb]

theorem reorder_recorded {s : Nat} {pos : Int} (hp : p.hasDelta = true)
    (hok : (Edit.reorder s pos).Ok p) (hsafe : (Edit.reorder s pos).Safe p) :
    Recorded p (uciReorderSection false p s pos) := by
  obtain ⟨hlt, hname, h1, h2⟩ := hok
  simp only [uciReorderSection]
  cases hmoved : (uciListSetPos p.sections s pos).2 with
  | false =>
    rw [uciListSetPos_same hlt hmoved]
    exact Or.inl rfl
  | true =>
    have hs : p.lookup (p.sect s).name = some s := by
      rcases hsafe with hs | hs
      · exact hs
      · rw [hmoved] at hs
        cases hs
    refine .of_record rfl hp rfl
      ⟨⟨hname, rfl, text_sprintInt pos, by simp, by simp, by simp, by simp⟩, by simp⟩ fun b log => ?_
    simp only [runDelta, Delta.ptr, expand_sect true (p := p.relog b log) hs, bind, Except.bind,
      Option.getD_some, strtoulInt_sprintInt h1 h2, uciReorderSection]
    simp only [Package.relog, hmoved, record_internal]
    rfl

/-- **What a call records is done again** when it is read. -/
theorem Edit.Ok.recorded {e : Edit} (hok : e.Ok p) (hp : p.hasDelta = true) (hsafe : e.Safe p)
    (h : e.run p = .ok p') : Recorded p p' := by
  cases e with
  | addSection type =>
    cases h
    exact addSection_recorded hp hok hsafe
  | set sect option value => exact set_recorded hp hok hsafe h
  | addList sect option value => exact addList_recorded hp hok h
  | delList sect option value => exact delList_recorded hp hok h
  | delete sect option => exact delete_recorded hp hok h
  | rename sect option name => exact rename_recorded hp hok h
  | reorder s pos =>
    cases h
    exact reorder_recorded hp hok hsafe

end

/-! ## Runs -/

/-- A call that fails has no effect. -/
def Edit.step (p : Package) (e : Edit) : Package :=
  match e.run p with
  | .ok p' => p'
  | .error _ => p

/-- The package `p` was changed from `base`, and what was recorded leads there again. -/
structure Saved (base p : Package) : Prop where
  name : p.name = base.name
  hasDelta : p.hasDelta = true
  form : ∀ d ∈ p.delta, d.Form
  again : replay base p.delta = (p.relog base.hasDelta base.delta, p.delta)

theorem Saved.step {base p : Package} {e : Edit} (h : Saved base p) (hok : e.Ok p)
    (hsafe : e.Safe p) : Saved base (e.step p) := by
  rw [Edit.step]
  cases hrun : e.run p with
  | error err => exact h
  | ok p' =>
    rcases hok.recorded h.hasDelta hsafe hrun with rfl | ⟨d, hd, hname, hp', hdelta, hagain⟩
    · exact h
    · have hexec : d.execute (p.relog base.hasDelta base.delta) =
          .ok (p'.relog base.hasDelta base.delta) := by
        rw [Delta.execute, if_neg fun hc => hd.char hc.1 hc.2]
        exact hagain _ _
      refine ⟨hname.trans h.name, hp', ?_, ?_⟩
      · intro d' hd'
        rw [hdelta, List.mem_append, List.mem_singleton] at hd'
        rcases hd' with hd' | rfl
        · exact h.form d' hd'
        · exact hd.toForm
      · rw [hdelta, replay_append, h.again]
        simp only [replay, hexec]

/-- **Reading the saved changes has the effect of the calls**, in every run whose
    calls are recorded without ambiguity. -/
theorem replay_edits {base : Package} {es : List Edit}
    (hname : uciValidateStr base.name true true = true) (hbase : base.hasDelta = true)
    (hempty : base.delta = [])
    (h : Run.Admits Edit.step (fun p e => e.Ok p ∧ e.Safe p) base es) {c : Ctx}
    (hc : c.package = some base) :
    let p := Run.run Edit.step base es
    ∃ c', Runs (uciLoadDelta [some (uciSave [] p).1]) c p.delta.length c' ∧
      c'.package = some { p with delta := [] } := by
  intro p
  have hsaved : Saved base p := by
    refine Run.Admits.invariant (fun q e hq hs => hs.step hq.1 hq.2) h ⟨rfl, hbase, ?_, ?_⟩
    · simp [hempty]
    · have hrelog : base.relog base.hasDelta base.delta = base := rfl
      rw [hrelog, hempty]
      rfl
  obtain ⟨c', hrun, hp'⟩ := uciParseDelta_replay hname hsaved.form hc
  rw [hsaved.again] at hrun hp'
  have hfile : (uciSave [] p).1 = p.delta.flatMap (uciDeltaSave base.name) := by
    rw [uciSave, hsaved.name, List.nil_append]
  refine ⟨c', ?_, ?_⟩
  · unfold uciLoadDelta
    refine .read ?_
    rw [hc, if_neg (by simp [hbase]), hfile, List.foldlM_cons]
    refine .seq (.seq hrun (.ret _ _)) ?_
    rw [Nat.zero_add]
    exact .ret _ _
  · rw [hp', Package.relog, hbase, hempty, ← hsaved.hasDelta]

/-- Two sections, one of which is moved, renamed, and gets a value of two lines. -/
def someEdits : List Edit :=
  [.addSection (bytes "rule"), .set (bytes "lan") none (bytes "interface"),
    .set (bytes "lan") (some (bytes "descr")) (bytes "it's\n'x'"),
    .addList (bytes "lan") (bytes "dns") (bytes "10.0.0.1"),
    .reorder 1 0, .rename (bytes "lan") none (bytes "wan"), .delete (bytes "wan") (some (bytes "dns"))]

theorem replay_someEdits :
    let base : Package := { name := bytes "net-work", hasDelta := true }
    let p := Run.run Edit.step base someEdits
    ∃ c', Runs (uciLoadDelta [some (uciSave [] p).1]) { package := some base } p.delta.length c' ∧
      c'.package = some { p with delta := [] } :=
  replay_edits (by decide) rfl rfl (by
    exact ⟨by decide, by decide, by decide, by decide, by decide, by decide, by decide, trivial⟩) rfl

/-- The sections that one gets from `base` when the changes of `p` are saved and read. -/
def reloaded (base p : Package) : Option (List Sect) :=
  match uciLoadDelta [some (uciSave [] p).1] { package := some base } with
  | .ok _ c => c.package.map Package.sections
  | .error _ _ => none

/-- The new value of a package whose name starts with a minus is read as a deletion, in a package
    with another name. A name that is made up may be that of another section, whose type is changed
    then. -/
theorem replay_ambiguous :
    (let base : Package := { name := bytes "-a", hasDelta := true }
      let e := Edit.set (bytes "s") none (bytes "t")
      uciValidateStr base.name true true = true ∧ e.Ok base ∧
        (e.step base).sections = [{ name := bytes "s", type := bytes "t" }] ∧
        reloaded base (e.step base) = some []) ∧
    (let name := bytes "cfg02b619"
      let base : Package :=
        { name := bytes "a", hasDelta := true, nSection := 1,
          sections := [{ name := name, type := bytes "x" }] }
      let e := Edit.addSection (bytes "t")
      e.Ok base ∧
        (e.step base).sections = [{ name := name, type := bytes "x" },
          { name := name, type := bytes "t", anonymous := true }] ∧
        reloaded base (e.step base) =
          some [{ name := name, type := bytes "t", anonymous := true }]) := by
  refine ⟨⟨by decide, by decide, by decide, ?_⟩, by decide, by decide, ?_⟩
  · decide +kernel
  · decide +kernel

end Uci
