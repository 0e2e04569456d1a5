/-
  Runs of the hash table: it is a finite map that remembers the order in which its keys came in,
  for any hash function and wherever its pairs are allocated.
-/
import IotLib.Jansson.HashtableMap

namespace Jansson

section
variable {V : Type}

/-! ## The map -/

/-- A map, and when each of its keys came in. -/
structure Timed (V : Type) where
  map : Bytes → Option V
  born : Bytes → ℕ
  clock : ℕ

namespace Timed

def empty : Timed V := ⟨fun _ => none, fun _ => 0, 0⟩

/-- A key that is in the map stays as old as it is. -/
def set (m : Timed V) (key : Bytes) (value : V) : Timed V where
  map := Function.update m.map key (some value)
  born := if (m.map key).isSome then m.born else Function.update m.born key m.clock
  clock := m.clock + 1

def del (m : Timed V) (key : Bytes) : Timed V := { m with map := Function.update m.map key none }

def clear (m : Timed V) : Timed V := { m with map := fun _ => none }

def keys (m : Timed V) : Set Bytes := {key | (m.map key).isSome}

/-- The bindings of the map, the oldest first -/
structure Lists (m : Timed V) (l : List (Bytes × V)) : Prop where
  mem : ∀ key value, (key, value) ∈ l ↔ m.map key = some value
  oldest : l.Pairwise fun a b => m.born a.1 < m.born b.1

end Timed

/-! ## Operations -/

/-- An operation, with what `jsonp_malloc` gives it -/
inductive TableOp (V : Type) where
  | set (key : Bytes) (value : V) (alloc : Alloc)
  | get (key : Bytes)
  | del (key : Bytes)
  | clear
  | iterate

inductive TableAnswer (V : Type) where
  | status (done : Bool)
  | value (value : Option V)
  | entries (entries : List (Bytes × V))
  | cleared

/-- An operation on the table -/
def tableStep (hash : Bytes → ℕ) (t : Hashtable V) :
    TableOp V → Option (TableAnswer V × Hashtable V)
  | .set key value alloc => do
    let (done, t) ← hashtableSet hash t key value alloc
    return (.status done, t)
  | .get key => do
    let value ← hashtableGet hash t key
    return (.value value, t)
  | .del key => do
    let (done, t) ← hashtableDel hash t key
    return (.status done, t)
  | .clear => do
    let t ← hashtableClear t
    return (.cleared, t)
  | .iterate => do
    let l ← hashtableIterate t
    return (.entries l, t)

def tableRun (hash : Bytes → ℕ) :
    Hashtable V → List (TableOp V) → Option (List (TableAnswer V) × Hashtable V)
  | t, [] => some ([], t)
  | t, op :: ops => do
    let (answer, t) ← tableStep hash t op
    let (answers, t) ← tableRun hash t ops
    return (answer :: answers, t)

/-- The memory for a pair is not that of another. -/
def TableOp.Fresh (t : Hashtable V) : TableOp V → Prop
  | .set _ _ alloc => ∀ p, alloc.pair = some p → t.pairs p = none
  | _ => True

/-- So it is all along a run. -/
def Mallocs (hash : Bytes → ℕ) : Hashtable V → List (TableOp V) → Prop
  | _, [] => True
  | t, op :: ops => op.Fresh t ∧
    ∀ answer t', tableStep hash t op = some (answer, t') → Mallocs hash t' ops

/-- There is no memory, or no size for it. -/
def Alloc.Fails (alloc : Alloc) (key : Bytes) (size : ℕ) : Prop :=
  alloc.buckets = false ∨ alloc.pair = none ∨ 2 ^ 64 - 1 - offsetofKey ≤ key.length ∨ 2 ^ 59 ≤ size

/-- What an operation answers, and what it makes of the map -/
def Timed.Step (m : Timed V) : TableOp V → TableAnswer V → Timed V → Prop
  | .set key value alloc, answer, m' =>
    (answer = .status true ∧ m' = m.set key value) ∨
      (answer = .status false ∧ m' = m ∧ alloc.Fails key m.keys.ncard)
  | .get key, answer, m' => answer = .value (m.map key) ∧ m' = m
  | .del key, answer, m' => answer = .status (m.map key).isSome ∧ m' = m.del key
  | .clear, answer, m' => answer = .cleared ∧ m' = m.clear
  | .iterate, answer, m' => ∃ l, answer = .entries l ∧ m.Lists l ∧ m' = m

def Timed.Run : Timed V → List (TableOp V) → List (TableAnswer V) → Timed V → Prop
  | m, [], [], m' => m' = m
  | m, op :: ops, answer :: answers, m' => ∃ m₁, m.Step op answer m₁ ∧ m₁.Run ops answers m'
  | _, _, _, _ => False

/-- The pairs of each bucket stand next to each other on the list of the table, between its
    `first` and its `last`. -/
def Hashtable.Contiguous (t : Hashtable V) : Prop :=
  ∃ l, Ring.Around t.list .table (nodes l) ∧ (∀ p, p ∈ l ↔ (t.pairs p).isSome) ∧
    ∀ i < hashsize t.order, ∃ before own behind, l = before ++ (own ++ behind) ∧
      t.buckets[i]? = some (ends own) ∧
      ∀ p pair, t.pairs p = some pair → (p ∈ own ↔ pair.hash &&& hashmask t.order = i)

/-! ## The members and the map -/

/-- The members of an object are the bindings of the map, the oldest first. -/
structure Timed.Keeps (m : Timed V) (ms : List (Bytes × V)) : Prop where
  get : ∀ key, objectGet key ms = m.map key
  oldest : (ms.map Prod.fst).Pairwise fun a b => m.born a < m.born b
  young : ∀ key ∈ ms.map Prod.fst, m.born key < m.clock

section
variable {m : Timed V} {ms : List (Bytes × V)}

theorem Timed.Keeps.nodup (h : m.Keeps ms) : (ms.map Prod.fst).Nodup := by
  refine h.oldest.imp fun hlt heq => ?_
  rw [heq] at hlt
  exact lt_irrefl _ hlt

theorem Timed.Keeps.mem_keys (h : m.Keeps ms) {key : Bytes} :
    key ∈ m.keys ↔ key ∈ ms.map Prod.fst := by
  show (m.map key).isSome ↔ _
  rw [← h.get, objectGet_isSome_iff]

theorem Timed.Keeps.lists (h : m.Keeps ms) : m.Lists ms := by
  have holdest := h.oldest
  rw [List.pairwise_map] at holdest
  refine ⟨fun key value => ?_, holdest⟩
  rw [← h.get]
  exact ⟨fun hmem => objectGet_of_mem h.nodup hmem, mem_of_objectGet⟩

theorem Timed.Keeps.ncard (h : m.Keeps ms) : m.keys.ncard = ms.length := by
  have heq : m.keys = (ms.map Prod.fst).toFinset := by
    ext key
    rw [h.mem_keys, Finset.mem_coe, List.mem_toFinset]
  rw [heq, Set.ncard_coe_finset, List.toFinset_card_of_nodup h.nodup, List.length_map]

theorem Timed.Keeps.empty : (Timed.empty : Timed V).Keeps [] := ⟨fun _ => rfl, .nil, nofun⟩

theorem Timed.Keeps.set (h : m.Keeps ms) (key : Bytes) (value : V) :
    (m.set key value).Keeps (objectSet key value ms) := by
  have hget : ∀ k, objectGet k (objectSet key value ms) = (m.set key value).map k := by
    intro k
    rw [objectGet_objectSet, h.get]
    show _ = Function.update m.map key (some value) k
    by_cases hk : k = key
    · rw [hk, if_pos rfl, Function.update_self]
    · rw [if_neg (Ne.symm hk), Function.update_of_ne hk]
  by_cases hkey : key ∈ ms.map Prod.fst
  · have hborn : (m.set key value).born = m.born := by
      rw [Timed.set, ← h.get, if_pos (objectGet_isSome_iff.2 hkey)]
    have hkeys : (objectSet key value ms).map Prod.fst = ms.map Prod.fst := by
      rw [objectSet_keys, if_pos hkey]
    refine ⟨hget, ?_, fun k hk => ?_⟩
    · rw [hkeys, hborn]
      exact h.oldest
    · rw [hkeys] at hk
      rw [hborn]
      exact Nat.lt_succ_of_lt (h.young k hk)
  · have hborn : (m.set key value).born = Function.update m.born key m.clock := by
      rw [Timed.set, ← h.get, if_neg (mt objectGet_isSome_iff.1 hkey)]
    have hkeys : (objectSet key value ms).map Prod.fst = ms.map Prod.fst ++ [key] := by
      rw [objectSet_keys, if_neg hkey]
    have hold : ∀ k ∈ ms.map Prod.fst, (m.set key value).born k = m.born k := by
      intro k hk
      have hne : k ≠ key := fun heq => hkey (heq ▸ hk)
      rw [hborn, Function.update_of_ne hne]
    have hnew : (m.set key value).born key = m.clock := by
      rw [hborn, Function.update_self]
    refine ⟨hget, ?_, fun k hk => ?_⟩
    · rw [hkeys, List.pairwise_append]
      refine ⟨h.oldest.imp_of_mem fun ha hb hlt => ?_, List.pairwise_singleton _ _,
        fun a ha b hb => ?_⟩
      · rw [hold _ ha, hold _ hb]
        exact hlt
      · rw [List.mem_singleton.1 hb, hold a ha, hnew]
        exact h.young a ha
    · rw [hkeys, List.mem_append, List.mem_singleton] at hk
      rcases hk with hk | rfl
      · rw [hold k hk]
        exact Nat.lt_succ_of_lt (h.young k hk)
      · rw [hnew]
        exact Nat.lt_succ_self _

theorem objectGet_objectDel (k key : Bytes) (ms : List (Bytes × V)) :
    objectGet k (objectDel key ms) = if k = key then none else objectGet k ms := by
  induction ms with
  | nil => simp [objectDel, objectGet]
  | cons a ms ih =>
    rw [objectDel] at ih ⊢
    by_cases ha : a.1 = key
    · rw [List.filter_cons_of_neg (by simpa using ha), ih, objectGet, ha]
      by_cases hk : k = key
      · rw [if_pos hk, if_pos hk]
      · rw [if_neg hk, if_neg hk, if_neg (Ne.symm hk)]
    · rw [List.filter_cons_of_pos (by simpa using ha), objectGet, objectGet, ih]
      by_cases hk : a.1 = k
      · rw [if_pos hk, if_pos hk, if_neg (hk ▸ ha)]
      · rw [if_neg hk, if_neg hk]

theorem Timed.Keeps.del (h : m.Keeps ms) (key : Bytes) : (m.del key).Keeps (objectDel key ms) := by
  have hsub : ((objectDel key ms).map Prod.fst).Sublist (ms.map Prod.fst) :=
    List.filter_sublist.map Prod.fst
  refine ⟨fun k => ?_, h.oldest.sublist hsub, fun k hk => h.young k (hsub.mem hk)⟩
  rw [objectGet_objectDel, h.get]
  show _ = Function.update m.map key none k
  by_cases hk : k = key
  · rw [if_pos hk, hk, Function.update_self]
  · rw [if_neg hk, Function.update_of_ne hk]

theorem Timed.Keeps.clear (m : Timed V) : m.clear.Keeps [] := ⟨fun _ => rfl, .nil, nofun⟩

end

/-! ## Runs -/

variable {hash : Bytes → ℕ} {t : Hashtable V} {ms : List (Bytes × V)} {m : Timed V}

theorem Represents.entries_length {idx : List ℕ} {seg : ℕ → List ℕ} {live : List ℕ}
    (h : Represents hash t idx seg live) : (entries t.pairs live).length = t.size := by
  have hall : ∀ l : List ℕ, (∀ p ∈ l, (t.pairs p).isSome) → (entries t.pairs l).length = l.length := by
    intro l hl
    induction l with
    | nil => rfl
    | cons p l ih =>
      obtain ⟨pair, hpair⟩ := Option.isSome_iff_exists.1 (hl p List.mem_cons_self)
      rw [entries_cons hpair, List.length_cons, ih fun q hq => hl q (List.mem_cons_of_mem p hq),
        List.length_cons]
  rw [hall live fun p => (h.allocated p).2, h.size]

/-- The segments of a table that holds something -/
theorem Represents.contiguous {idx : List ℕ} {seg : ℕ → List ℕ} {live : List ℕ}
    (h : Represents hash t idx seg live) : t.Contiguous := by
  refine ⟨Segments.flat idx seg, h.segmented.ring, fun p => ?_, fun i hi => ?_⟩
  · rw [h.perm.mem_iff, h.allocated]
  have hown : ∀ p pair, t.pairs p = some pair →
      (p ∈ seg i ↔ pair.hash &&& hashmask t.order = i) := by
    intro p pair hpair
    rw [(h.index pair.hash).1]
    constructor
    · intro hp
      obtain ⟨pair', hpair', hplace⟩ := h.place i p hp
      rw [hpair] at hpair'
      exact Option.some.inj hpair' ▸ hplace
    · rintro rfl
      exact h.mem_seg hpair
  have hbucket := h.segmented.ends i (h.buckets ▸ hi)
  cases hseg : seg i with
  | nil =>
    rw [hseg] at hbucket hown
    exact ⟨[], [], Segments.flat idx seg, rfl, hbucket, hown⟩
  | cons q l =>
    have hq : q ∈ seg i := hseg ▸ List.mem_cons_self
    obtain ⟨before, behind, hself, -⟩ := h.segmented.exists_around hq
    exact ⟨before, seg i, behind, hself, hbucket, hown⟩

/-- **One operation** on the table is the operation on the map. -/
theorem tableStep_refines (h : t.Holds hash ms) (hm : m.Keeps ms) (op : TableOp V)
    (hfresh : op.Fresh t) :
    ∃ answer t' m' ms', tableStep hash t op = some (answer, t') ∧ m.Step op answer m' ∧
      t'.Holds hash ms' ∧ m'.Keeps ms' := by
  obtain ⟨idx, seg, live, h, rfl⟩ := h
  cases op with
  | set key value alloc =>
    obtain ⟨done, t', hset, hfail, hok⟩ := h.set key value alloc hfresh
    refine ⟨.status done, t', ?_⟩
    rw [tableStep, hset]
    cases done with
    | false =>
      obtain ⟨hholds, hwhy⟩ := hfail rfl
      refine ⟨m, _, rfl, .inr ⟨rfl, rfl, ?_⟩, hholds, hm⟩
      rw [Alloc.Fails, hm.ncard, h.entries_length]
      exact hwhy
    | true => exact ⟨m.set key value, _, rfl, .inl ⟨rfl, rfl⟩, hok rfl, hm.set key value⟩
  | get key =>
    refine ⟨.value (m.map key), t, m, _, ?_, ⟨rfl, rfl⟩, ⟨idx, seg, live, h, rfl⟩, hm⟩
    rw [tableStep, h.get key, hm.get]
    rfl
  | del key =>
    obtain ⟨t', hdel, hholds⟩ := h.del key
    refine ⟨_, t', m.del key, _, ?_, ⟨rfl, rfl⟩, hholds, hm.del key⟩
    have hsome : decide (key ∈ (entries t.pairs live).map Prod.fst) = (m.map key).isSome := by
      rw [Bool.eq_iff_iff, decide_eq_true_eq, ← hm.get, objectGet_isSome_iff]
    rw [tableStep, hdel, hsome]
    rfl
  | clear =>
    obtain ⟨t', hclear, hholds⟩ := h.clear
    refine ⟨.cleared, t', m.clear, [], ?_, ⟨rfl, rfl⟩, hholds, .clear m⟩
    rw [tableStep, hclear]
    rfl
  | iterate =>
    refine ⟨_, t, m, _, ?_, ⟨_, rfl, hm.lists, rfl⟩, ⟨idx, seg, live, h, rfl⟩, hm⟩
    rw [tableStep, h.iterate]
    rfl

/-- **A run** of the table is a run of the map. -/
theorem tableRun_refines : ∀ {ops : List (TableOp V)} {t : Hashtable V} {ms : List (Bytes × V)}
    {m : Timed V}, t.Holds hash ms → m.Keeps ms → Mallocs hash t ops →
    ∃ answers t' m' ms', tableRun hash t ops = some (answers, t') ∧ m.Run ops answers m' ∧
      t'.Holds hash ms' ∧ m'.Keeps ms'
  | [], t, ms, m, h, hm, _ => ⟨[], t, m, ms, rfl, rfl, h, hm⟩
  | op :: ops, t, ms, m, h, hm, hmallocs => by
    obtain ⟨answer, t₁, m₁, ms₁, hstep, hspec, h₁, hm₁⟩ := tableStep_refines h hm op hmallocs.1
    obtain ⟨answers, t', m', ms', hrun, hspecs, h', hm'⟩ :=
      tableRun_refines h₁ hm₁ (hmallocs.2 answer t₁ hstep)
    refine ⟨answer :: answers, t', m', ms', ?_, ⟨m₁, hspec, hspecs⟩, h', hm'⟩
    rw [tableRun, hstep]
    simp only [Option.bind_eq_bind, Option.bind_some, hrun]
    rfl

/-- **The hash table refines a map** whose iteration gives the oldest key first: in any run from
    a new table, every answer is that of the map, the size is the number of keys, and the pairs
    of each bucket stand next to each other. -/
theorem hashtable_refines (hash : Bytes → ℕ) (ops : List (TableOp V))
    (h : Mallocs hash hashtableInit ops) :
    ∃ answers t m, tableRun hash hashtableInit ops = some (answers, t) ∧
      Timed.empty.Run ops answers m ∧ t.size = m.keys.ncard ∧ t.Contiguous := by
  obtain ⟨answers, t, m, ms, hrun, hspec, ⟨idx, seg, live, h, rfl⟩, hm⟩ :=
    tableRun_refines holds_init Timed.Keeps.empty h
  refine ⟨answers, t, m, hrun, hspec, ?_, h.contiguous⟩
  rw [hm.ncard, h.entries_length]

/-- A key with a NUL byte is set and set again, and deleted. -/
theorem hashtable_refines_nul :
    let ops : List (TableOp ℕ) := [.set [0x61, 0] 7 ⟨true, some 0⟩, .set [0x61, 0] 8 ⟨true, none⟩,
      .get [0x61, 0], .del [0x61, 0], .iterate]
    Mallocs (fun _ => 0) hashtableInit ops ∧
    ∃ answers t m, tableRun (fun _ => 0) hashtableInit ops = some (answers, t) ∧
      Timed.empty.Run ops answers m ∧ t.size = m.keys.ncard ∧ t.Contiguous := by
  have hmallocs : Mallocs (fun _ => 0) hashtableInit
      [TableOp.set [0x61, 0] 7 ⟨true, some 0⟩, .set [0x61, 0] 8 ⟨true, none⟩,
        .get [0x61, 0], .del [0x61, 0], .iterate] := by
    refine ⟨fun _ _ => rfl, fun _ _ _ => ⟨nofun, fun _ _ _ => ⟨trivial, fun _ _ _ =>
      ⟨trivial, fun _ _ _ => ⟨trivial, fun _ _ _ => trivial⟩⟩⟩⟩⟩
  exact ⟨hmallocs, hashtable_refines _ _ hmallocs⟩

end

end Jansson
