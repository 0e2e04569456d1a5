/-
  Stacks of modules: the levels that the lines of the configuration get (`_pam_parse_conf_file` in
  `libpam/pam_handlers.c`), and where a jump or a decision of the dispatcher leads.
-/
import IotLib.Lib.Nest
import IotLib.Pam.Frozen
import IotLib.Pam.Soundness

namespace Pam

variable {F σ : Type}

/-! ## The configuration -/

/-- What a line asks for: a module, which may lack its control flag or its name, or another file, in
    the same stack or in one of its own. -/
inductive Control (F : Type) where
  | module (complete silent : Bool) (actions : ℕ → Action) (func func2 : Option F)
  | load (substack : Bool) (file : Option String)

/-- A line of the configuration; the type may be missing or illegal. -/
structure ConfLine (F : Type) where
  other : Bool
  type : Option ModType
  control : Control F

/-- The files: their lines, and whether all of them could be read. -/
abbrev Files (F : Type) := String → Option (List (ConfLine F) × Bool)

/-- The type of the handler of a module. -/
def moduleType (complete silent : Bool) : HandlerType :=
  if complete = false then .mustFail else if silent then .silentModule else .module

/-- One line of `_pam_parse_conf_file`, where `load` is `_pam_load_conf_file`. -/
def parseLine (load : Bool → ModType → ℕ → Option String → Option (List (Line F) × Bool))
    (inherited : Option Bool) (requested : Option ModType) (level : ℕ) (l : ConfLine F) :
    Option (List (Line F)) :=
  let type := l.type.getD (requested.getD .auth)
  let other := inherited.getD l.other
  if requested.any (· ≠ type) then some []
  else
    match l.control with
    | .module complete silent actions func func2 =>
      some [⟨other, type, moduleType (l.type.isSome && complete) silent, level, actions, func, func2⟩]
    | .load substack file =>
      (load other type (level + substack.toNat) file).map fun r =>
        (if substack then [⟨other, type, .substack, level, fun _ => .undef, none, none⟩] else []) ++
          (r.1 ++ if r.2 then [] else [⟨other, type, .mustFail, level, fun _ => .bad, none, none⟩])

/-- `_pam_load_conf_file`, where `parse` is `_pam_parse_conf_file`. -/
def loadFile (parse : Option Bool → Option ModType → ℕ → List (ConfLine F) × Bool →
      Option (List (Line F) × Bool)) (files : Files F)
    (other : Bool) (type : ModType) (level : ℕ) (file : Option String) :
    Option (List (Line F) × Bool) :=
  if pamSubstackMaxLevel ≤ level then some ([], false)
  else
    match file.bind files with
    | none => some ([], false)
    | some conf => parse (some other) (some type) level conf

/-- The loop of `_pam_parse_conf_file`. -/
def parseLines (parse : ConfLine F → Option (List (Line F))) : List (ConfLine F) → Option (List (Line F))
  | [] => some []
  | l :: conf => (parse l).bind fun ls => (parseLines parse conf).map (ls ++ ·)

/-- `_pam_parse_conf_file`: the handlers that are added, and whether all was read. Files that
    include each other without end use up the fuel. -/
def pamParseConfFile (files : Files F) : ℕ → Option Bool → Option ModType → ℕ →
    List (ConfLine F) × Bool → Option (List (Line F) × Bool)
  | 0, _, _, _, _ => none
  | n + 1, inherited, requested, level, conf =>
    (parseLines (parseLine (loadFile (pamParseConfFile files n) files) inherited requested level)
      conf.1).map fun ls => (ls, conf.2)

/-- The handlers that are added for one type. -/
def selected (other : Bool) (type : ModType) (ls : List (Line F)) : List (Line F) :=
  ls.filter fun l => l.other = other ∧ l.type = type

/-- The lines form a stack. -/
def Stacked (level : ℕ) (ls : List (Line F)) : Prop :=
  ∃ t : Nest (Line F), t.flat = ls ∧ t.Level Line.stackLevel level ∧
    t.Heads fun l => l.handlerType = .substack

/-- A handler of the chain was added for a line. -/
structure Added (l : Line F) (h : Handler F) : Prop where
  level : h.stackLevel = l.stackLevel
  type : h.handlerType = l.handlerType

/-- The chain is a stack with nested ones. -/
def ChainStacked (level : ℕ) (hs : List (Handler F)) : Prop :=
  ∃ t : Nest (Handler F), t.flat = hs ∧ t.Level Handler.stackLevel level ∧
    t.Heads fun h => h.handlerType = .substack

/-! ## Loading -/

section
variable {level : ℕ} {other : Bool} {type : ModType} {ls ls' : List (Line F)}

theorem Stacked.nil : Stacked level ([] : List (Line F)) := ⟨.nil, rfl, trivial, trivial⟩

theorem Stacked.append (h : Stacked level ls) (h' : Stacked level ls') : Stacked level (ls ++ ls') := by
  obtain ⟨t, rfl, ht, hh⟩ := h
  obtain ⟨u, rfl, hu, hhu⟩ := h'
  exact ⟨t.append u, t.append_flat u, ht.append hu, hh.append hhu⟩

theorem Stacked.single {l : Line F} (hl : l.stackLevel = level) (ht : l.handlerType ≠ .substack) :
    Stacked level [l] := ⟨.leaf l .nil, rfl, ⟨hl, trivial⟩, ht, trivial⟩

/-- A substack with its lines. -/
theorem Stacked.cons {l : Line F} (h : Stacked (level + 1) ls) (hl : l.stackLevel = level)
    (ht : l.handlerType = .substack) : Stacked level (l :: ls) := by
  obtain ⟨t, rfl, hlev, hh⟩ := h
  exact ⟨.node l t .nil, by rw [Nest.flat, Nest.flat, List.append_nil], ⟨hl, hlev, trivial⟩, ht, hh,
    trivial⟩

theorem selected_append : selected other type (ls ++ ls') =
    selected other type ls ++ selected other type ls' := List.filter_append ls ls'

/-- The handlers of a file that was requested for a type have this type. -/
def Uniform (other : Bool) (type : ModType) (ls : List (Line F)) : Prop :=
  ∀ l ∈ ls, l.other = other ∧ l.type = type

theorem selected_uniform (h : Uniform other type ls) : selected other type ls = ls :=
  List.filter_eq_self.2 fun l hl => decide_eq_true (h l hl)

theorem selected_of_ne {other' : Bool} {type' : ModType} (h : Uniform other' type' ls)
    (hne : ¬ (other' = other ∧ type' = type)) : selected other type ls = [] := by
  refine List.filter_eq_nil_iff.2 fun l hl hsel => hne ?_
  have hsel' := of_decide_eq_true hsel
  exact ⟨(h l hl).1.symm.trans hsel'.1, (h l hl).2.symm.trans hsel'.2⟩

end

section
variable {files : Files F} {level : ℕ}

/-- What a file that was requested for a type leads to. -/
structure LoadOk (other : Bool) (type : ModType) (level : ℕ) (ls : List (Line F)) : Prop where
  uniform : Uniform other type ls
  stacked : Stacked level ls

theorem LoadOk.nil (other : Bool) (type : ModType) (level : ℕ) :
    LoadOk other type level ([] : List (Line F)) := ⟨nofun, .nil⟩

theorem Uniform.append {other : Bool} {type : ModType} {ls ls' : List (Line F)}
    (h : Uniform other type ls) (h' : Uniform other type ls') : Uniform other type (ls ++ ls') :=
  fun l hl => (List.mem_append.1 hl).elim (h l) (h' l)

theorem Uniform.single {other : Bool} {type : ModType} {l : Line F} (hother : l.other = other)
    (htype : l.type = type) : Uniform other type [l] := by
  intro x hx
  rw [List.mem_singleton.1 hx]
  exact ⟨hother, htype⟩

theorem parseLine_ok
    {load : Bool → ModType → ℕ → Option String → Option (List (Line F) × Bool)}
    (hload : ∀ other type level file r, load other type level file = some r →
      LoadOk other type level r.1) {inherited : Option Bool} {requested : Option ModType}
    {l : ConfLine F} {ls : List (Line F)}
    (h : parseLine load inherited requested level l = some ls) :
    LoadOk (inherited.getD l.other) (l.type.getD (requested.getD .auth)) level ls ∧
      ∀ type, requested = some type → Uniform (inherited.getD l.other) type ls := by
  unfold parseLine at h
  dsimp only at h
  generalize hother : inherited.getD l.other = other at h ⊢
  generalize htype : l.type.getD (requested.getD .auth) = type at h ⊢
  by_cases hreq : requested.any (· ≠ type) = true
  · rw [if_pos hreq] at h
    obtain rfl := Option.some.inj h
    exact ⟨.nil other type level, fun _ _ => nofun⟩
  · rw [if_neg hreq] at h
    have hok : LoadOk other type level ls := by
      cases hcontrol : l.control with
      | module complete silent actions func func2 =>
        rw [hcontrol] at h
        obtain rfl := Option.some.inj h
        refine ⟨Uniform.single rfl rfl, .single rfl ?_⟩
        unfold moduleType
        split_ifs <;> nofun
      | load substack file =>
        rw [hcontrol] at h
        obtain ⟨r, hr, rfl⟩ := Option.map_eq_some_iff.1 h
        obtain ⟨huni, hstack⟩ := hload other type _ file r hr
        have hfail : LoadOk other type level (if r.2 then [] else
            [(⟨other, type, .mustFail, level, fun _ => .bad, none, none⟩ : Line F)]) := by
          cases r.2 with
          | true => exact .nil other type level
          | false => exact ⟨Uniform.single rfl rfl, .single rfl nofun⟩
        cases substack with
        | false => exact ⟨huni.append hfail.uniform, hstack.append hfail.stacked⟩
        | true =>
          let head : Line F := ⟨other, type, .substack, level, fun _ => .undef, none, none⟩
          have hhead : Uniform other type [head] := Uniform.single rfl rfl
          have hcons : Stacked level (head :: r.1) := hstack.cons rfl rfl
          exact ⟨hhead.append (huni.append hfail.uniform), hcons.append hfail.stacked⟩
    refine ⟨hok, fun t ht => ?_⟩
    rw [ht, Option.any_some] at hreq
    obtain rfl : t = type := by simpa using hreq
    exact hok.uniform

/-- A property of what the lines lead to. -/
theorem parseLines_invariant {parse : ConfLine F → Option (List (Line F))} {P : List (Line F) → Prop}
    (hline : ∀ l ls, parse l = some ls → P ls) (happend : ∀ ls ls', P ls → P ls' → P (ls ++ ls'))
    {conf : List (ConfLine F)} (hnil : P []) {ls : List (Line F)}
    (h : parseLines parse conf = some ls) : P ls := by
  induction conf generalizing ls with
  | nil =>
    obtain rfl := Option.some.inj h
    exact hnil
  | cons l conf ih =>
    obtain ⟨as, has, hrest⟩ := Option.bind_eq_some_iff.1 h
    obtain ⟨bs, hbs, rfl⟩ := Option.map_eq_some_iff.1 hrest
    exact happend as bs (hline l as has) (ih hbs)

theorem pamLoadFile_ok {parse : Option Bool → Option ModType → ℕ → List (ConfLine F) × Bool →
      Option (List (Line F) × Bool)}
    (hparse : ∀ other type level conf r, parse (some other) (some type) level conf = some r →
      LoadOk other type level r.1) {other : Bool} {type : ModType} {file : Option String}
    {r : List (Line F) × Bool} (h : loadFile parse files other type level file = some r) :
    LoadOk other type level r.1 := by
  unfold loadFile at h
  split_ifs at h with hlevel
  · obtain rfl := Option.some.inj h
    exact .nil other type level
  · cases hfile : file.bind files with
    | none =>
      rw [hfile] at h
      obtain rfl := Option.some.inj h
      exact .nil other type level
    | some conf =>
      rw [hfile] at h
      exact hparse other type level conf r h

/-- What a file leads to: for each type a stack, and for a requested type no other handlers. -/
theorem pamParseConfFile_ok {n : ℕ} {inherited : Option Bool} {requested : Option ModType}
    {conf : List (ConfLine F) × Bool} {r : List (Line F) × Bool}
    (h : pamParseConfFile files n inherited requested level conf = some r) :
    (∀ other type, Stacked level (selected other type r.1)) ∧
      ∀ other type, inherited = some other → requested = some type → LoadOk other type level r.1 := by
  induction n generalizing inherited requested level conf r with
  | zero => cases h
  | succ n ih =>
    obtain ⟨ls, hls, rfl⟩ := Option.map_eq_some_iff.1 h
    have hload : ∀ other type level file r, loadFile (pamParseConfFile files n) files other type level
        file = some r → LoadOk other type level r.1 :=
      fun other type level file r hr => pamLoadFile_ok
        (fun other type level conf r hr => (ih hr).2 other type rfl rfl) hr
    refine ⟨fun other type => ?_, fun other type hother htype => ?_⟩
    · refine @parseLines_invariant F _ (fun ls => Stacked level (selected other type ls))
        (fun l ls hl => ?_) (fun _ _ ha hb => ?_) _ .nil _ hls
      · obtain ⟨hok, -⟩ := parseLine_ok hload hl
        by_cases heq : inherited.getD l.other = other ∧ l.type.getD (requested.getD .auth) = type
        · obtain ⟨rfl, rfl⟩ := heq
          rw [selected_uniform hok.uniform]
          exact hok.stacked
        · rw [selected_of_ne hok.uniform heq]
          exact .nil
      · rw [selected_append]
        exact ha.append hb
    · subst hother htype
      refine parseLines_invariant (fun l ls hl => ?_) (fun _ _ ha hb => ?_)
        (LoadOk.nil other type level) hls
      · obtain ⟨hok, huni⟩ := parseLine_ok hload hl
        exact ⟨huni type rfl, hok.stacked⟩
      · exact ⟨ha.uniform.append hb.uniform, ha.stacked.append hb.stacked⟩

end

/-- `_pam_init_handlers`: the handlers of the files of a service, one after the other. -/
inductive Configured (files : Files F) : List (Line F) → Prop
  | none : Configured files []
  | file {ls : List (Line F)} {n : ℕ} {conf : List (ConfLine F) × Bool} {r : List (Line F) × Bool}
      (h : Configured files ls) (hr : pamParseConfFile files n none none 0 conf = some r) :
      Configured files (ls ++ r.1)

theorem Configured.stacked {files : Files F} {ls : List (Line F)} (h : Configured files ls)
    (other : Bool) (type : ModType) : Stacked 0 (selected other type ls) := by
  induction h with
  | none => exact .nil
  | file _ hr ih =>
    rw [selected_append]
    exact ih.append ((pamParseConfFile_ok hr).1 other type)

theorem pamAddHandler_first (s : Handlers F) (l : Line F) (other : Bool) (type : ModType) :
    ∃ h, Added l h ∧ (pamAddHandler s l).chain other type.first =
      s.chain other type.first ++ if l.other = other ∧ l.type = type then [h] else [] := by
  unfold pamAddHandler
  set a : Handler F := ⟨l.handlerType, l.func, l.actions, s.next, s.next, l.stackLevel⟩
  have hfirst : (s.push l.other l.type.first a).chain other type.first =
      s.chain other type.first ++ if l.other = other ∧ l.type = type then [a] else [] := by
    by_cases heq : l.other = other ∧ l.type = type
    · obtain ⟨rfl, rfl⟩ := heq
      rw [if_pos ⟨rfl, rfl⟩, Handlers.push_chain]
    · rw [if_neg heq, List.append_nil, Handlers.push_chain_ne]
      exact fun h => heq ⟨h.1.symm, ModType.first_inj h.2.symm⟩
  refine ⟨a, ⟨rfl, rfl⟩, ?_⟩
  dsimp only
  cases hsecond : l.type.second with
  | none => exact hfirst
  | some c =>
    dsimp only
    rw [Handlers.push_chain_ne _ fun h => ModType.first_ne_second hsecond h.2]
    exact hfirst

/-- The chains of the first functions. -/
theorem load_added (ls : List (Line F)) (other : Bool) (type : ModType) :
    List.Forall₂ Added (selected other type ls)
      ((ls.foldl pamAddHandler {}).chain other type.first) := by
  induction ls using List.reverseRecOn with
  | nil => exact .nil
  | append_singleton ls l ih =>
    obtain ⟨h, hadded, hchain⟩ := pamAddHandler_first (ls.foldl pamAddHandler {}) l other type
    rw [List.foldl_append, List.foldl_cons, List.foldl_nil, hchain, selected_append]
    refine List.rel_append ih ?_
    by_cases heq : l.other = other ∧ l.type = type
    · rw [if_pos heq, selected_uniform (Uniform.single heq.1 heq.2)]
      exact .cons hadded .nil
    · rw [if_neg heq, selected_of_ne (Uniform.single rfl rfl) heq]
      exact .nil

theorem ChainStacked.of_stacked {level : ℕ} {ls : List (Line F)} {hs : List (Handler F)}
    (h : Stacked level ls) (hadded : List.Forall₂ Added ls hs) : ChainStacked level hs := by
  obtain ⟨t, rfl, hlevel, hheads⟩ := h
  refine Nest.exists_of_forall₂ (fun l h hl => hl.level) (fun l h hl => ?_) hlevel hheads hadded
  rw [hl.type]

/-- **The chains that are loaded are stacks**, with nested ones behind the handlers of substacks. -/
theorem Configured.chain {files : Files F} {ls : List (Line F)} (h : Configured files ls)
    (other : Bool) (c : Choice) :
    ChainStacked 0 ((ls.foldl pamAddHandler {}).chain other c) := by
  obtain ⟨type, hc⟩ : ∃ type : ModType, type.first = c ∨ type.second = some c := by
    cases c with
    | authenticate => exact ⟨.auth, .inl rfl⟩
    | setcred => exact ⟨.auth, .inr rfl⟩
    | account => exact ⟨.acct, .inl rfl⟩
    | openSession => exact ⟨.sess, .inl rfl⟩
    | closeSession => exact ⟨.sess, .inr rfl⟩
    | chauthtok => exact ⟨.pass, .inl rfl⟩
  have hfirst := ChainStacked.of_stacked (h.stacked other type) (load_added ls other type)
  rcases hc with rfl | hc
  · exact hfirst
  · -- the second functions have the levels and types of the first
    obtain ⟨t, ht, hlevel, hheads⟩ := hfirst
    have htwins := (load_ok ls).twins other type c hc
    rw [← ht] at htwins
    refine Nest.exists_of_forall₂ (fun a b hab => hab.stackLevel) (fun a b hab => ?_) hlevel hheads htwins
    rw [hab.handlerType]

/-- A file whose first line loads the file itself, in a substack. -/
def selfLoading : List (ConfLine Unit) × Bool :=
  ([⟨false, some .auth, .load true (some "")⟩,
    ⟨false, some .auth, .module true false (fun _ => .ok) none none⟩], true)

theorem chain_selfLoading : ∃ ls, Configured (fun _ => some selfLoading) ls ∧ ls.length = 33 ∧
    ChainStacked 0 ((ls.foldl pamAddHandler {}).chain false .setcred) :=
  have h := Configured.file .none
    (show pamParseConfFile (fun _ => some selfLoading) 18 none none 0 selfLoading = some _ from rfl)
  ⟨_, h, rfl, h.chain false .setcred⟩

/-! ## Jumps and decisions -/

section
variable {call : F → σ → Int × σ} {use : UseCached} {h : Handler F} {hs tl : List (Handler F)}
  {w w' : Walk σ} {l k : ℕ} {sibs : Nest (Handler F)} {out : List (Handler F)}

/-- The loops of a jump count the entries of the stack, each with what is nested in it. -/
theorem jumpLoop_flat (n : ℕ) (hsibs : sibs.Level Handler.stackLevel l)
    (hout : ∀ x ∈ out.head?, x.stackLevel < l) :
    jumpLoop l n (sibs.flat ++ out) = ((sibs.drop n).flat ++ out, n - sibs.length) := by
  induction n generalizing sibs with
  | zero => rw [jumpLoop, Nest.drop, Nat.zero_sub]
  | succ n ih =>
    cases sibs with
    | nil =>
      rw [Nest.drop, Nest.flat, List.nil_append, Nest.length, Nat.sub_zero]
      cases out with
      | nil => rw [jumpLoop]
      | cons x out =>
        rw [jumpLoop, if_neg]
        exact (hout x rfl).not_ge
    | leaf a next =>
      rw [Nest.flat, List.cons_append, jumpLoop, if_pos hsibs.1.ge, hsibs.2.dropWhile_next hout,
        ih hsibs.2, Nest.drop, Nest.length, Nat.add_sub_add_right]
    | node a body next =>
      rw [Nest.flat, List.cons_append, List.append_assoc, jumpLoop, if_pos hsibs.1.ge,
        hsibs.2.1.dropWhile_body hsibs.2.2 hout, ih hsibs.2.2, Nest.drop, Nest.length,
        Nat.add_sub_add_right]

theorem drop_jumpLoop (l n : ℕ) (tl : List (Handler F)) :
    tl.drop (tl.length - (jumpLoop l n tl).1.length) = (jumpLoop l n tl).1 := by
  obtain ⟨sk, hsk, -, -⟩ := jumpLoop_spec l n tl
  have hlen := congrArg List.length hsk
  rw [List.length_append] at hlen
  have hk : tl.length - (jumpLoop l n tl).1.length = sk.length := by omega
  rw [hk]
  conv_lhs => rw [hsk]
  exact List.drop_left

/-- A decision skips the rest of the stack. -/
theorem decisionSkip_flat (hsibs : sibs.Level Handler.stackLevel l)
    (hout : ∀ x ∈ out.head?, x.stackLevel < l) :
    decisionSkip l (sibs.flat ++ out) = sibs.flat.length := by
  unfold decisionSkip
  rw [hsibs.takeWhile hout]

/-- The loop comes to the handlers `hs`: from the start, one handler after the other. -/
inductive Comes (call : F → σ → Int × σ) (use : UseCached) (hs₀ : List (Handler F)) (w₀ : Walk σ) :
    List (Handler F) → Walk σ → Prop
  | start : Comes call use hs₀ w₀ hs₀ w₀
  | next {h : Handler F} {tl : List (Handler F)} {w w' : Walk σ} {k : ℕ}
      (hc : Comes call use hs₀ w₀ (h :: tl) w) (hb : body call use h tl (enter h w) = .next k w') :
      Comes call use hs₀ w₀ (tl.drop k) w'

theorem loop_drop (call : F → σ → Int × σ) (use : UseCached) (hs : List (Handler F)) (k : ℕ)
    (w : Walk σ) : loop call use hs k w = loop call use (hs.drop k) 0 w := by
  induction hs generalizing k with
  | nil => rw [List.drop_nil, loop, loop]
  | cons h tl ih =>
    cases k with
    | zero => rfl
    | succ k => rw [loop, ih, List.drop_succ_cons]

/-- The loop goes on from the handlers that it comes to. -/
theorem Comes.loop_eq {hs₀ : List (Handler F)} {w₀ : Walk σ} (hc : Comes call use hs₀ w₀ hs w) :
    loop call use hs₀ 0 w₀ = loop call use hs 0 w := by
  induction hc with
  | start => rfl
  | next _ hb ih =>
    rw [ih, loop, hb]
    exact loop_drop call use _ _ _

/-- How an iteration goes on. -/
theorem body_next {v : Walk σ} (hb : body call use h tl v = .next k w') :
    (h.handlerType = .substack ∧ k = 0 ∧ w' = passSubstack h v) ∨
      (h.handlerType ≠ .substack ∧ (k, w') = consume use h tl v (callModule call h v.world)) := by
  unfold body at hb
  dsimp only at hb
  split_ifs at hb with hsub hinc
  · obtain ⟨rfl, rfl⟩ := Iter.next.inj hb
    exact .inl ⟨hsub, rfl, rfl⟩
  · obtain ⟨rfl, rfl⟩ := Iter.next.inj hb
    exact .inr ⟨hsub, rfl⟩

theorem body_depth {v : Walk σ} (hb : body call use h tl v = .next k w') :
    w'.depth = v.depth + 1 + k := by
  rcases body_next hb with ⟨-, rfl, rfl⟩ | ⟨-, hcons⟩
  · rfl
  · obtain ⟨rfl, rfl⟩ := Prod.mk.inj hcons
    rfl

/-- The counter of the loop is the place in the chain. -/
theorem Comes.depth {chain hs₀ : List (Handler F)} {w₀ : Walk σ} (h₀ : hs₀ = chain.drop w₀.depth)
    (hc : Comes call use hs₀ w₀ hs w) : hs = chain.drop w.depth := by
  induction hc with
  | start => exact h₀
  | next _ hb ih =>
    rw [body_depth hb, enter_depth, Nat.add_assoc, ← List.drop_drop, ← ih, Nat.add_comm 1,
      List.drop_succ_cons]

/-- `h` is a module of the chain: behind it come the entries `sibs` of its stack, and then those of
    the stacks around it. -/
def Place (chain : List (Handler F)) (h : Handler F) (sibs : Nest (Handler F))
    (out : List (Handler F)) : Prop :=
  ∃ t : Nest (Handler F), t.flat = chain ∧ t.Level Handler.stackLevel 0 ∧
    (t.Heads fun h => h.handlerType = .substack) ∧ t.Part [] (.leaf h sibs) out

theorem Place.level {chain : List (Handler F)} (hp : Place chain h sibs out) :
    sibs.Level Handler.stackLevel h.stackLevel ∧ ∀ x ∈ out.head?, x.stackLevel < h.stackLevel := by
  obtain ⟨t, -, hlevel, -, hpart⟩ := hp
  have hnil : ∀ x ∈ ([] : List (Handler F)).head?, x.stackLevel < 0 := nofun
  obtain ⟨l, hl, hout⟩ := hlevel.part hnil hpart
  obtain ⟨rfl, hsibs⟩ := hl
  exact ⟨hsibs, hout⟩

theorem exists_place {chain : List (Handler F)} (hstack : ChainStacked 0 chain) {d : ℕ}
    (hd : h :: tl = chain.drop d) (hmod : h.handlerType ≠ .substack) :
    ∃ sibs out, Place chain h sibs out ∧ tl = sibs.flat ++ out := by
  obtain ⟨t, rfl, hlevel, hheads⟩ := hstack
  have hlt : d < t.flat.length := by
    by_contra hge
    rw [List.drop_eq_nil_of_le (Nat.le_of_not_lt hge)] at hd
    cases hd
  have hsplit : t.flat ++ [] = t.flat.take d ++ h :: tl := by
    rw [List.append_nil, hd, List.take_append_drop]
  have hlen : (t.flat.take d).length < t.flat.length := by
    rw [List.length_take]
    omega
  obtain ⟨u, out, hpart, hu, hne⟩ := Nest.exists_part hsplit hlen
  have hhead := hheads.part hpart
  cases u with
  | nil => exact (hne rfl).elim
  | leaf a sibs =>
    obtain ⟨rfl, htl⟩ := List.cons.inj hu
    exact ⟨sibs, out, ⟨t, rfl, hlevel, hheads, hpart⟩, htl.symm⟩
  | node a body sibs =>
    obtain ⟨rfl, -⟩ := List.cons.inj hu
    exact (hmod hhead.1).elim

end

/-! ## Runs that have failed -/

/-- A bad jump has been taken. -/
structure Stuck (w : Walk σ) : Prop where
  impression : w.impression = .negative
  status : w.status = pamMustFailCode

def Event.IsReset (e : Event) : Prop := ∃ l, e.ResetAt l

/-- The walk at the end, or where it is suspended. -/
def Outcome.walk : Outcome σ → Walk σ
  | .incomplete w => w
  | .finished w => w

section
variable {call : F → σ → Int × σ} {use : UseCached} {h : Handler F} {hs tl : List (Handler F)}
  {w w' : Walk σ} {k : ℕ}

theorem Stuck.result (hw : Stuck w) : w.result ≠ pamSuccess := by
  unfold Walk.result
  rw [hw.status]
  split_ifs <;> decide

theorem Stuck.enter (hw : Stuck w) (h : Handler F) : Stuck (Pam.enter h w) := by
  unfold Pam.enter
  split_ifs
  · exact ⟨hw.impression, hw.status⟩
  · exact hw

/-- Only a reset improves the state. -/
theorem Stuck.verdict (hw : Stuck w) (use : UseCached) (h : Handler F) (tl : List (Handler F))
    (c r : Int) {a : Action} (ha : a ≠ .reset) :
    (Pam.verdict use h tl w c r a).impression = .negative ∧
      (Pam.verdict use h tl w c r a).status = pamMustFailCode := by
  have himp : ¬ w.improvable := by
    unfold Walk.improvable
    rw [hw.impression]
    rintro (h | h)
    · cases h
    · cases h.1
  cases a with
  | reset => exact (ha rfl).elim
  | ok | done =>
    simp only [Pam.verdict, verdictOk, himp, false_and, if_false]
    exact ⟨hw.impression, hw.status⟩
  | bad | die =>
    simp only [Pam.verdict, verdictBad, hw.impression, ne_eq, not_true_eq_false, if_false]
    exact ⟨trivial, hw.status⟩
  | ignore => exact ⟨hw.impression, hw.status⟩
  | undef => exact ⟨rfl, rfl⟩
  | jump n =>
    simp only [Pam.verdict, verdictJump, himp, false_and, and_false, if_false]
    split_ifs
    · exact ⟨rfl, rfl⟩
    · exact ⟨hw.impression, hw.status⟩

theorem enter_trace (h : Handler F) (w : Walk σ) :
    ∃ new, (enter h w).trace = w.trace ++ new := by
  unfold enter
  split_ifs
  · exact ⟨_, rfl⟩
  · exact ⟨[], (List.append_nil _).symm⟩

/-- The walk goes on from `w`, and is still stuck unless there was a reset. -/
def Remains (w w' : Walk σ) : Prop :=
  ∃ new, w'.trace = w.trace ++ new ∧ (Stuck w' ∨ ∃ e ∈ new, e.IsReset)

theorem Remains.refl (hw : Stuck w) : Remains w w := ⟨[], (List.append_nil _).symm, .inl hw⟩

theorem Remains.trans {v : Walk σ} (hr : Remains v w) (hext : ∃ new, w'.trace = w.trace ++ new)
    (hstep : Stuck w → Remains w w') : Remains v w' := by
  obtain ⟨new, hnew, hstuck | ⟨e, he, hreset⟩⟩ := hr
  · obtain ⟨more, hmore, hstuck'⟩ := hstep hstuck
    refine ⟨new ++ more, by rw [hmore, hnew, List.append_assoc], ?_⟩
    rcases hstuck' with hstuck' | ⟨e, he, hreset⟩
    · exact .inl hstuck'
    · exact .inr ⟨e, List.mem_append_right new he, hreset⟩
  · obtain ⟨more, hmore⟩ := hext
    exact ⟨new ++ more, by rw [hmore, hnew, List.append_assoc],
      .inr ⟨e, List.mem_append_left more he, hreset⟩⟩

theorem Remains.enter {v : Walk σ} (hr : Remains v w) (h : Handler F) :
    Remains v (Pam.enter h w) := by
  obtain ⟨new, hnew⟩ := enter_trace h w
  exact hr.trans ⟨new, hnew⟩ fun hw => ⟨new, hnew, .inl (hw.enter h)⟩

theorem body_trace (hb : body call use h tl w = .next k w') : ∃ new, w'.trace = w.trace ++ new := by
  rcases body_next hb with ⟨-, rfl, rfl⟩ | ⟨-, hcons⟩
  · exact ⟨[], (List.append_nil _).symm⟩
  · obtain ⟨rfl, rfl⟩ := Prod.mk.inj hcons
    exact ⟨_, rfl⟩

theorem body_incomplete (hb : body call use h tl w = .incomplete w') :
    w'.trace = w.trace ∧ w'.impression = w.impression ∧ w'.status = w.status := by
  unfold body at hb
  dsimp only at hb
  split_ifs at hb
  obtain rfl := Iter.incomplete.inj hb
  exact ⟨rfl, rfl, rfl⟩

/-- A handler of a walk that is stuck. -/
theorem Stuck.body (hw : Stuck w) (hb : Pam.body call use h tl w = .next k w') : Remains w w' := by
  rcases body_next hb with ⟨-, rfl, rfl⟩ | ⟨-, hcons⟩
  · exact ⟨[], (List.append_nil _).symm, .inl ⟨hw.impression, hw.status⟩⟩
  · obtain ⟨rfl, rfl⟩ := Prod.mk.inj hcons
    refine ⟨_, rfl, ?_⟩
    set c := consultCache use w.cells h (callModule call h w.world).1
    set a := selectAction h c.1 (callModule call h w.world).1
    by_cases ha : a.2 = .reset
    · exact .inr ⟨_, List.mem_singleton_self _, h.stackLevel, rfl, ha⟩
    · obtain ⟨himp, hstatus⟩ := hw.verdict use h tl c.1 a.1 ha
      exact .inl ⟨himp, hstatus⟩

/-- A walk that is stuck stays so, as long as there is no reset. -/
theorem Remains.loop {v : Walk σ} (hr : Remains v w) (hs : List (Handler F)) (k : ℕ) :
    Remains v (Pam.loop call use hs k w).walk := by
  induction hs generalizing k w with
  | nil =>
    rw [Pam.loop]
    exact hr
  | cons h tl ih =>
    cases k with
    | succ k =>
      rw [Pam.loop]
      exact ih hr k
    | zero =>
      have henter := hr.enter h
      rw [Pam.loop]
      cases hb : Pam.body call use h tl (Pam.enter h w) with
      | incomplete w' =>
        obtain ⟨htrace, himp, hstatus⟩ := body_incomplete hb
        refine henter.trans ⟨[], htrace.trans (List.append_nil _).symm⟩ fun hw => ?_
        exact ⟨[], htrace.trans (List.append_nil _).symm,
          .inl ⟨himp.trans hw.impression, hstatus.trans hw.status⟩⟩
      | next k w' => exact ih (henter.trans (body_trace hb) fun hw => hw.body hb) k

end

/-! ## Where the loop goes on -/

/-- Without a later reset the walk from here on is no success, also when it is suspended. -/
def Doomed (call : F → σ → Int × σ) (use : UseCached) (hs : List (Handler F)) (w : Walk σ) : Prop :=
  ∃ new, (loop call use hs 0 w).walk.trace = w.trace ++ new ∧ ((∀ e ∈ new, ¬ e.IsReset) →
    Stuck (loop call use hs 0 w).walk ∧ (loop call use hs 0 w).walk.result ≠ pamSuccess)

theorem Stuck.doomed {w : Walk σ} (hw : Stuck w) (call : F → σ → Int × σ) (use : UseCached)
    (hs : List (Handler F)) : Doomed call use hs w := by
  obtain ⟨new, hnew, hstuck⟩ := @Remains.loop F σ call use w w (.refl hw) hs 0
  refine ⟨new, hnew, fun hno => ?_⟩
  rcases hstuck with hstuck | ⟨e, he, hreset⟩
  · exact ⟨hstuck, hstuck.result⟩
  · exact (hno e he hreset).elim

/-- **Where a jump leads.** A jump over `n + 1` entries goes on behind the `n + 1` next entries of
    its stack, each taken with all that is nested in it; if there are fewer, the run cannot succeed
    any more without a reset. A decision skips exactly the rest of the stack. -/
theorem jump_goes_on (call : F → σ → Int × σ) (use : UseCached) {chain hs₀ : List (Handler F)}
    {w₀ : Walk σ} (hstack : ChainStacked 0 chain) (h₀ : hs₀ = chain.drop w₀.depth) {h : Handler F}
    {tl : List (Handler F)} {w w' : Walk σ} {k : ℕ} (hc : Comes call use hs₀ w₀ (h :: tl) w)
    (hmod : h.handlerType ≠ .substack) (hb : body call use h tl (enter h w) = .next k w') :
    ∃ sibs out a, Place chain h sibs out ∧ tl = sibs.flat ++ out ∧
      (∃ d real retval bad,
        w'.trace.getLast? = some (.ran d h.stackLevel real retval a bad)) ∧
      loop call use hs₀ 0 w₀ = loop call use (tl.drop k) 0 w' ∧ tl.drop k = chain.drop w'.depth ∧
      (∀ n, a = .jump n → n + 1 ≤ sibs.length → tl.drop k = (sibs.drop (n + 1)).flat ++ out) ∧
      (∀ n, a = .jump n → sibs.length < n + 1 → tl.drop k = out ∧ Doomed call use out w') ∧
      (a = .die ∨ a = .done ∧ w'.impression = .positive → tl.drop k = out) := by
  have hnext : Comes call use hs₀ w₀ (tl.drop k) w' := hc.next hb
  obtain ⟨sibs, out, hplace, htl⟩ := exists_place hstack (hc.depth h₀) hmod
  obtain ⟨hsibs, hout⟩ := hplace.level
  obtain ⟨hsub, -⟩ | ⟨-, hcons⟩ := body_next hb
  · exact (hmod hsub).elim
  obtain ⟨hk, hw'⟩ := Prod.mk.inj hcons
  set v := enter h w
  set r := callModule call h v.world
  set c := consultCache use v.cells h r.1
  set a := selectAction h c.1 r.1
  have hskip : k = (verdict use h tl v c.1 a.1 a.2).skip := hk
  have hwalk : w'.impression = (verdict use h tl v c.1 a.1 a.2).impression ∧
      w'.status = (verdict use h tl v c.1 a.1 a.2).status := by
    rw [hw']
    exact ⟨rfl, rfl⟩
  have hjump : ∀ n, a.2 = .jump n → tl.drop k = (sibs.drop (n + 1)).flat ++ out ∧
      (sibs.length < n + 1 → Stuck w') := by
    intro n hn
    have hloop := jumpLoop_flat (n + 1) hsibs hout
    rw [← htl] at hloop
    rw [hn] at hskip hwalk
    refine ⟨?_, fun hlt => ?_⟩
    · have hdrop := drop_jumpLoop h.stackLevel (n + 1) tl
      rw [hloop] at hdrop
      rw [hskip]
      change tl.drop (tl.length - (jumpLoop h.stackLevel (n + 1) tl).1.length) = _
      rw [hloop]
      exact hdrop
    · have hbad : (jumpLoop h.stackLevel (n + 1) tl).2 ≠ 0 := by
        rw [hloop]
        exact Nat.sub_ne_zero_of_lt hlt
      exact ⟨hwalk.1.trans (if_pos hbad), hwalk.2.trans (if_pos hbad)⟩
  have hdecision : k = decisionSkip h.stackLevel tl → tl.drop k = out := by
    intro hk
    rw [hk, htl, decisionSkip_flat hsibs hout]
    exact List.drop_left
  refine ⟨sibs, out, a.2, hplace, htl, ?_, hnext.loop_eq, hnext.depth h₀, ?_, ?_, ?_⟩
  · refine ⟨v.depth, r.2.1, r.1, (verdict use h tl v c.1 a.1 a.2).badJump, ?_⟩
    rw [hw']
    exact List.getLast?_concat
  · intro n hn _
    exact (hjump n hn).1
  · intro n hn hlt
    obtain ⟨hdrop, hstuck⟩ := hjump n hn
    rw [Nest.drop_of_length_le hlt.le, Nest.flat, List.nil_append] at hdrop
    exact ⟨hdrop, (hstuck hlt).doomed call use out⟩
  · rintro (hdie | ⟨hdone, hpos⟩)
    · rw [hdie] at hskip
      exact hdecision hskip
    · rw [hdone] at hskip hwalk
      rw [hwalk.1] at hpos
      exact hdecision (hskip.trans (if_pos ⟨hpos, rfl⟩))

/-- A module that jumps over the next entry. -/
def jumper : Handler Unit := ⟨.module, some (), fun _ => .jump 0, 0, 0, 0⟩

/-- Behind it are a substack and a last module. -/
def overSubstack : List (Handler Unit) :=
  [jumper, ⟨.substack, none, fun _ => .undef, 1, 1, 0⟩,
    ⟨.module, some (), fun _ => .ok, 2, 2, 1⟩, ⟨.module, some (), fun _ => .ok, 3, 3, 0⟩]

theorem overSubstack_stacked : ChainStacked 0 overSubstack :=
  ⟨.leaf _ (.node _ (.leaf _ .nil) (.leaf _ .nil)), rfl,
    ⟨rfl, rfl, ⟨rfl, trivial⟩, rfl, trivial⟩, nofun, rfl, ⟨nofun, trivial⟩, nofun, trivial⟩

/-- All modules succeed. -/
def succeeds (_ : Unit) (s : Unit) : Int × Unit := (pamSuccess, s)

def startWalk : Walk Unit where
  depth := 0
  prevLevel := 0
  impression := .undef
  status := pamMustFailCode
  substates := fun _ => ⟨.undef, pamMustFailCode⟩
  cells := fun _ => pamInvalidRetval
  grantor := []
  world := ()
  trace := [.save 0]

theorem jump_goes_on_over_substack : ∃ sibs out, Place overSubstack jumper sibs out ∧
    overSubstack.tail = sibs.flat ++ out := by
  have h₀ : overSubstack = overSubstack.drop startWalk.depth := rfl
  have hstart : Comes succeeds .pleaseFreeze overSubstack startWalk (jumper :: overSubstack.tail)
      startWalk := .start
  obtain ⟨sibs, out, -, hplace, htl, -⟩ := jump_goes_on succeeds .pleaseFreeze overSubstack_stacked
    h₀ hstart (by decide) rfl
  exact ⟨sibs, out, hplace, htl⟩

end Pam
