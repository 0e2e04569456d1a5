/-
  The hash table holds the members of an object: its operations are those of `Value` on the list
  of the members, whatever the hash function is.
-/
import IotLib.Jansson.Hashtable

namespace Jansson

section
variable {V : Type}

/-! ## Rehashing -/

/-- Each pair of a segment belongs there. -/
def InPlace (pairs : ℕ → Option (Pair V)) (size : ℕ) (seg : ℕ → List ℕ) : Prop :=
  ∀ i, ∀ p ∈ seg i, ∃ pair, pairs p = some pair ∧ pair.hash % size = i

variable {pairs : ℕ → Option (Pair V)}

/-- A pair comes into the segment of its hash. -/
theorem InPlace.insert {size p : ℕ} {seg : ℕ → List ℕ}
    {pair : Pair V} (h : InPlace pairs size seg) (hp : pairs p = some pair) :
    InPlace pairs size (Function.update seg (pair.hash % size) (p :: seg (pair.hash % size))) := by
  intro i q hq
  by_cases hi : i = pair.hash % size
  · subst hi
    rw [Function.update_self] at hq
    rcases List.mem_cons.1 hq with rfl | hq
    · exact ⟨pair, hp, rfl⟩
    · exact h _ q hq
  · rw [Function.update_of_ne hi] at hq
    exact h i q hq

/-- The loop of `hashtable_do_rehash` takes the pairs off the old list, which it overwrites: the
    links to the next node that it still needs are those of pairs not yet inserted. -/
theorem rehashFrom_segments {old : Ring.Links ListPtr} {newSize : ℕ} (hpos : 0 < newSize) :
    ∀ {rest before : List ℕ} {t : Hashtable V} {idx : List ℕ} {seg : ℕ → List ℕ} {n : ℕ},
    Ring.Path old .table (nodes (before ++ rest)) .table → (before ++ rest).Nodup →
    t.buckets.length = newSize → Segmented t.list t.buckets idx seg →
    (Segments.flat idx seg).Perm before → InPlace t.pairs newSize seg →
    (∀ p ∈ rest, t.list.next (.pair p) = old.next (.pair p)) →
    (∀ p ∈ rest, (t.pairs p).isSome) → rest.length < n →
    ∃ list buckets idx' seg',
      rehashFrom newSize n t (Ring.firstOf (nodes rest) .table) = some { t with list, buckets } ∧
      buckets.length = newSize ∧ Segmented list buckets idx' seg' ∧
      (Segments.flat idx' seg').Perm (before ++ rest) ∧ InPlace t.pairs newSize seg'
  | [], before, t, idx, seg, n + 1, _, _, hlen, hseg, hperm, hplace, _, _, _ =>
    ⟨t.list, t.buckets, idx, seg, rfl, hlen, hseg, (List.append_nil before).symm ▸ hperm, hplace⟩
  | p :: rest, before, t, idx, seg, n + 1, hold, hnodup, hlen, hseg, hperm, hplace, hnext, hlive,
      hn => by
    obtain ⟨pair, hpair⟩ := Option.isSome_iff_exists.1 (hlive p List.mem_cons_self)
    obtain ⟨-, hrest, hdisj⟩ := List.nodup_append.1 hnodup
    have hp : p ∉ Segments.flat idx seg := fun hmem =>
      hdisj p (hperm.mem_iff.1 hmem) p List.mem_cons_self rfl
    have hi : pair.hash % newSize < t.buckets.length := hlen.symm ▸ Nat.mod_lt _ hpos
    obtain ⟨list, buckets, idx', hinsert, hlen', hframe, hseg', hperm'⟩ := hseg.insert hi hp
    have hto : t.list.next (.pair p) = some (Ring.firstOf (nodes rest) .table) := by
      have hpath := hold
      rw [nodes, List.map_append, List.map_cons] at hpath
      rw [hnext p List.mem_cons_self]
      exact (Ring.Path.append.1 hpath).2.next_eq
    have hleft : ∀ q ∈ rest, list.next (.pair q) = old.next (.pair q) := by
      intro q hq
      rw [← hnext q (List.mem_cons_of_mem p hq)]
      refine hframe _ fun hmem => ?_
      rcases List.mem_cons.1 (mem_nodes.1 hmem) with rfl | hmem
      · exact (List.nodup_cons.1 hrest).1 hq
      · exact hdisj q (hperm.mem_iff.1 hmem) q (List.mem_cons_of_mem p hq) rfl
    rw [List.append_cons] at hold hnodup ⊢
    obtain ⟨list₁, buckets₁, idx₁, seg₁, hloop, hdone⟩ :=
      rehashFrom_segments (t := { t with list, buckets }) hpos hold hnodup (hlen'.trans hlen) hseg'
        (hperm'.trans ((hperm.cons p).trans (List.perm_append_singleton p before).symm))
        (hplace.insert hpair) hleft (fun q hq => hlive q (List.mem_cons_of_mem p hq))
        (Nat.lt_of_succ_lt_succ hn)
    refine ⟨list₁, buckets₁, idx₁, seg₁, ?_, hdone⟩
    rw [nodes, List.map_cons, Ring.firstOf, List.head?_cons, Option.getD_some, rehashFrom, hto, hpair]
    simp only [Option.bind_eq_bind, Option.bind_some, hinsert]
    exact hloop

/-! ## Members around a key -/

section
variable {key : Bytes} {pre post : List (Bytes × V)} {value value' : V}

theorem objectGet_append (h : key ∉ pre.map Prod.fst) :
    objectGet key (pre ++ (key, value) :: post) = some value := by
  induction pre with
  | nil => rw [List.nil_append, objectGet, if_pos rfl]
  | cons m pre ih =>
    rw [List.map_cons, List.mem_cons, not_or] at h
    rw [List.cons_append, objectGet, if_neg (Ne.symm h.1), ih h.2]

theorem objectSet_append (h : key ∉ pre.map Prod.fst) :
    objectSet key value' (pre ++ (key, value) :: post) = pre ++ (key, value') :: post := by
  induction pre with
  | nil => rw [List.nil_append, objectSet, if_pos rfl, List.nil_append]
  | cons m pre ih =>
    rw [List.map_cons, List.mem_cons, not_or] at h
    rw [List.cons_append, objectSet, if_neg (Ne.symm h.1), ih h.2, List.cons_append]

theorem objectDel_eq_self (h : key ∉ pre.map Prod.fst) : objectDel key pre = pre := by
  refine List.filter_eq_self.2 fun m hm => ?_
  have hne : m.1 ≠ key := fun heq => h (heq ▸ List.mem_map_of_mem hm)
  exact decide_eq_true hne

theorem objectDel_append (hpre : key ∉ pre.map Prod.fst) (hpost : key ∉ post.map Prod.fst) :
    objectDel key (pre ++ (key, value) :: post) = pre ++ post := by
  rw [objectDel, List.filter_append, List.filter_cons_of_neg (by simp)]
  exact congrArg₂ _ (objectDel_eq_self hpre) (objectDel_eq_self hpost)

end

/-! ## What the table holds -/

/-- The pairs of the table in the order of their insertion, and how its list is cut. -/
structure Represents (hash : Bytes → ℕ) (t : Hashtable V) (idx : List ℕ) (seg : ℕ → List ℕ)
    (live : List ℕ) : Prop where
  segmented : Segmented t.list t.buckets idx seg
  buckets : t.buckets.length = hashsize t.order
  order : t.order < 60
  perm : (Segments.flat idx seg).Perm live
  place : InPlace t.pairs (hashsize t.order) seg
  ordered : Ring.Around t.orderedList .table (nodes live)
  allocated : ∀ p, (t.pairs p).isSome ↔ p ∈ live
  hashed : ∀ p pair, t.pairs p = some pair → pair.hash = hash pair.key
  keys : ∀ p q pair pair', t.pairs p = some pair → t.pairs q = some pair' →
    pair.key = pair'.key → p = q
  size : t.size = live.length

/-- The keys and the values of pairs -/
def entries (pairs : ℕ → Option (Pair V)) (live : List ℕ) : List (Bytes × V) :=
  live.filterMap fun p => (pairs p).map fun pair => (pair.key, pair.value)

/-- The table holds the members of an object. -/
def Hashtable.Holds (hash : Bytes → ℕ) (t : Hashtable V) (ms : List (Bytes × V)) : Prop :=
  ∃ idx seg live, Represents hash t idx seg live ∧ ms = entries t.pairs live

theorem entries_append (pairs : ℕ → Option (Pair V)) (l l' : List ℕ) :
    entries pairs (l ++ l') = entries pairs l ++ entries pairs l' := List.filterMap_append

theorem entries_cons {p : ℕ} {pair : Pair V}
    (h : pairs p = some pair) (l : List ℕ) :
    entries pairs (p :: l) = (pair.key, pair.value) :: entries pairs l := by
  rw [entries, List.filterMap_cons, h]
  rfl

/-- Only the pairs of the list count. -/
theorem entries_congr {pairs pairs' : ℕ → Option (Pair V)} {l : List ℕ}
    (h : ∀ p ∈ l, pairs' p = pairs p) : entries pairs' l = entries pairs l := by
  refine List.filterMap_congr fun p hp => ?_
  rw [h p hp]

theorem mem_entries {l : List ℕ} {m : Bytes × V} :
    m ∈ entries pairs l ↔ ∃ p ∈ l, ∃ pair, pairs p = some pair ∧ (pair.key, pair.value) = m := by
  simp only [entries, List.mem_filterMap, Option.map_eq_some_iff]

section
variable {hash : Bytes → ℕ} {t : Hashtable V} {idx : List ℕ} {seg : ℕ → List ℕ} {live : List ℕ}
  {p : ℕ} {pair : Pair V}

/-- The bucket of a key -/
theorem Represents.index (h : Represents hash t idx seg live) (n : ℕ) :
    n &&& hashmask t.order = n % hashsize t.order ∧ n % hashsize t.order < t.buckets.length := by
  refine ⟨Nat.and_two_pow_sub_one_eq_mod n t.order, ?_⟩
  rw [h.buckets]
  exact Nat.mod_lt _ (Nat.two_pow_pos t.order)

theorem Represents.mem_seg (h : Represents hash t idx seg live) (hp : t.pairs p = some pair) :
    p ∈ seg (pair.hash % hashsize t.order) := by
  have hlive : p ∈ live := (h.allocated p).1 (hp ▸ rfl)
  obtain ⟨i, -, hi⟩ := Segments.mem_flat.1 (h.perm.mem_iff.2 hlive)
  obtain ⟨pair', hpair', rfl⟩ := h.place i p hi
  rw [hp] at hpair'
  exact Option.some.inj hpair' ▸ hi

theorem Represents.mem_live (h : Represents hash t idx seg live) {i : ℕ} (hp : p ∈ seg i) :
    p ∈ live := h.perm.mem_iff.1 (h.segmented.mem_flat hp)

theorem Represents.nodup (h : Represents hash t idx seg live) : live.Nodup :=
  h.perm.nodup_iff.1 h.segmented.nodup_flat

/-- A pair in its place among the others: their keys are different. -/
theorem Represents.entries_around (h : Represents hash t idx seg live)
    (hp : t.pairs p = some pair) :
    ∃ pre post, live = pre ++ p :: post ∧ p ∉ pre ∧ p ∉ post ∧
      pair.key ∉ (entries t.pairs pre).map Prod.fst ∧
      pair.key ∉ (entries t.pairs post).map Prod.fst := by
  obtain ⟨pre, post, rfl⟩ := List.append_of_mem ((h.allocated p).1 (hp ▸ rfl))
  obtain ⟨-, hpost, hdisj⟩ := List.nodup_append.1 h.nodup
  have hpre : p ∉ pre := fun hmem => hdisj p hmem p List.mem_cons_self rfl
  have hother : ∀ l : List ℕ, p ∉ l → pair.key ∉ (entries t.pairs l).map Prod.fst := by
    intro l hl hmem
    obtain ⟨m, hm, hkey⟩ := List.mem_map.1 hmem
    obtain ⟨q, hq, pair', hpair', rfl⟩ := mem_entries.1 hm
    exact hl (h.keys q p pair' pair hpair' hp hkey ▸ hq)
  exact ⟨pre, post, rfl, hpre, (List.nodup_cons.1 hpost).1, hother pre hpre,
    hother post (List.nodup_cons.1 hpost).1⟩

/-- `hashtable_find_pair` finds the pair of a key, if there is one. -/
theorem Represents.find (h : Represents hash t idx seg live) (key : Bytes) :
    ∃ found, hashtableFindPair t (hash key &&& hashmask t.order) key (hash key) = some found ∧
      (∀ p, found = some p → p ∈ seg (hash key % hashsize t.order) ∧
        ∃ pair, t.pairs p = some pair ∧ pair.key = key) ∧
      (found = none → ∀ p pair, t.pairs p = some pair → pair.key ≠ key) := by
  obtain ⟨hindex, hi⟩ := h.index (hash key)
  have hsize : (seg (hash key % hashsize t.order)).length ≤ t.size := by
    rw [h.size]
    have hnodup : (seg (hash key % hashsize t.order)).Nodup := by
      by_cases hne : seg (hash key % hashsize t.order) = []
      · rw [hne]
        exact List.nodup_nil
      obtain ⟨q, hq⟩ := List.exists_mem_of_ne_nil _ hne
      obtain ⟨before, behind, hself, -⟩ := h.segmented.exists_around hq
      have hflat := h.segmented.nodup_flat
      rw [hself] at hflat
      exact (List.nodup_append.1 (List.nodup_append.1 hflat).2.1).1
    exact (hnodup.subperm fun q hq => h.mem_live hq).length_le
  obtain ⟨found, hfound, hsome, hnone⟩ := hashtableFindPair_finds h.segmented hi
    (fun q hq => (h.allocated q).2 (h.mem_live hq)) hsize key (hash key)
  refine ⟨found, hindex ▸ hfound, fun p hp => ?_, fun hn p pair hp hkey => ?_⟩
  · obtain ⟨hmem, pair, hpair, -, hkey⟩ := hsome p hp
    exact ⟨hmem, pair, hpair, hkey⟩
  · have hhash : pair.hash = hash key := hkey ▸ h.hashed p pair hp
    exact hnone hn p (hhash ▸ h.mem_seg hp) ⟨pair, hp, hhash, hkey⟩

/-! ## The operations -/

theorem entries_absent {key : Bytes}
    (hnone : ∀ p pair, pairs p = some pair → pair.key ≠ key) (l : List ℕ) :
    key ∉ (entries pairs l).map Prod.fst := by
  intro hmem
  obtain ⟨m, hm, hkey⟩ := List.mem_map.1 hmem
  obtain ⟨p, -, pair, hpair, rfl⟩ := mem_entries.1 hm
  exact hnone p pair hpair hkey

/-- `hashtable_get` -/
theorem Represents.get (h : Represents hash t idx seg live) (key : Bytes) :
    hashtableGet hash t key = some (objectGet key (entries t.pairs live)) := by
  obtain ⟨found, hfound, hsome, hnone⟩ := h.find key
  rw [hashtableGet, hfound, Option.bind_eq_bind, Option.bind_some]
  cases found with
  | none =>
    rw [objectGet_eq_none_iff.2 (entries_absent (hnone rfl) live)]
    rfl
  | some p =>
    obtain ⟨-, pair, hpair, rfl⟩ := hsome p rfl
    obtain ⟨pre, post, rfl, -, -, hpre, -⟩ := h.entries_around hpair
    rw [entries_append, entries_cons hpair, objectGet_append hpre]
    show ((t.pairs p).bind fun pair => some (some pair.value)) = _
    rw [hpair]
    rfl

/-- `hashtable_do_rehash`: the pairs stay what they are. -/
theorem Represents.rehash (h : Represents hash t idx seg live) (malloc : Bool) :
    ∃ done t', hashtableDoRehash t malloc = some (done, t') ∧
      (done = false → t' = t ∧ (malloc = false ∨ t.order = 59)) ∧
      (done = true → t'.pairs = t.pairs ∧ ∃ idx' seg', Represents hash t' idx' seg' live) := by
  have horder := h.order
  rw [hashtableDoRehash]
  split_ifs with hcond
  · refine ⟨false, t, rfl, fun _ => ⟨rfl, hcond.imp_right fun hzero => ?_⟩, nofun⟩
    by_contra hne
    have hlt : hashsize (t.order + 1) * sizeofBucket < 2 ^ 64 := by
      rw [hashsize, show sizeofBucket = 2 ^ 4 from rfl, ← Nat.pow_add]
      exact Nat.pow_lt_pow_right (by omega) (by omega)
    rw [Nat.mod_eq_of_lt hlt] at hzero
    exact absurd hzero (Nat.mul_pos (Nat.two_pow_pos _) (by decide)).ne'
  · rw [not_or] at hcond
    have hsmall : t.order + 1 < 60 := by
      by_contra hge
      refine hcond.2 (Nat.mod_eq_zero_of_dvd ?_)
      rw [hashsize, show sizeofBucket = 2 ^ 4 from rfl, ← Nat.pow_add]
      exact Nat.pow_dvd_pow 2 (by omega)
    have hpos : 0 < hashsize (t.order + 1) := Nat.two_pow_pos _
    have hpath := h.segmented.ring.path
    have hall : Ring.Path t.list .table (nodes ([] ++ Segments.flat idx seg)) .table := hpath
    have hlength : (Segments.flat idx seg).length < t.size + 1 := by
      rw [h.perm.length_eq, h.size]
      exact Nat.lt_succ_self _
    have hempty : Segmented (listInit t.list .table)
        (List.replicate (hashsize (t.order + 1)) emptyBucket) [] fun _ => [] := by
      refine ⟨listInit_around _ _, List.nodup_nil, fun _ _ => rfl, fun i hi => ?_⟩
      rw [List.length_replicate] at hi
      rw [List.getElem?_replicate, if_pos hi]
      rfl
    have hnext : ∀ p ∈ Segments.flat idx seg,
        (listInit t.list .table).next (.pair p) = t.list.next (.pair p) := by
      intro p _
      have hne : ListPtr.pair p ≠ .table := nofun
      exact listInit_next t.list hne
    obtain ⟨list, buckets, idx', seg', hloop, hlen, hseg, hperm, hplace⟩ :=
      rehashFrom_segments (t := { t with
          buckets := List.replicate (hashsize (t.order + 1)) emptyBucket
          order := t.order + 1
          list := listInit t.list .table })
        hpos hall h.segmented.nodup_flat
        List.length_replicate hempty .nil (fun _ _ hp => nomatch hp) hnext
        (fun p hp => (h.allocated p).2 (h.perm.mem_iff.1 hp)) hlength
    refine ⟨true, { t with buckets, list, order := t.order + 1 }, ?_, nofun,
      fun _ => ⟨rfl, idx', seg', ⟨hseg, hlen, hsmall,
      hperm.trans h.perm, hplace, h.ordered, h.allocated, h.hashed, h.keys, h.size⟩⟩⟩
    simp only [Option.bind_eq_bind, hpath.next_eq, Option.bind_some]
    rw [hloop]
    rfl

/-- A pair may get another value. -/
theorem Represents.setValue (h : Represents hash t idx seg live) (hp : t.pairs p = some pair)
    (value : V) :
    Represents hash { t with pairs := Function.update t.pairs p (some { pair with value }) } idx seg
      live := by
  have hsame : ∀ q pair', Function.update t.pairs p (some { pair with value }) q = some pair' →
      ∃ old, t.pairs q = some old ∧ old.hash = pair'.hash ∧ old.key = pair'.key := by
    intro q pair' hq
    by_cases hqp : q = p
    · subst hqp
      rw [Function.update_self] at hq
      exact ⟨pair, hp, Option.some.inj hq ▸ rfl, Option.some.inj hq ▸ rfl⟩
    · rw [Function.update_of_ne hqp] at hq
      exact ⟨pair', hq, rfl, rfl⟩
  have hsome : ∀ q, (Function.update t.pairs p (some { pair with value }) q).isSome ↔ q ∈ live := by
    intro q
    rw [← h.allocated]
    by_cases hqp : q = p
    · rw [hqp, Function.update_self, hp]
      simp
    · rw [Function.update_of_ne hqp]
  refine ⟨h.segmented, h.buckets, h.order, h.perm, fun i q hq => ?_, h.ordered, hsome,
    fun q pair' hq => ?_, fun q r pair' pair'' hq hr hkey => ?_, h.size⟩
  · obtain ⟨pair', hpair'⟩ := Option.isSome_iff_exists.1 ((hsome q).2 (h.mem_live hq))
    obtain ⟨old, hold, hhash, -⟩ := hsame q pair' hpair'
    obtain ⟨old', hold', rfl⟩ := h.place i q hq
    rw [hold] at hold'
    exact ⟨pair', hpair', by rw [← hhash, Option.some.inj hold']⟩
  · obtain ⟨old, hold, hhash, hkey⟩ := hsame q pair' hq
    rw [← hhash, ← hkey]
    exact h.hashed q old hold
  · obtain ⟨old, hold, -, hkey₁⟩ := hsame q pair' hq
    obtain ⟨old', hold', -, hkey₂⟩ := hsame r pair'' hr
    exact h.keys q r old old' hold hold' ((hkey₁.trans hkey).trans hkey₂.symm)

/-- A new pair comes last. -/
theorem Represents.add (h : Represents hash t idx seg live) (hp : t.pairs p = none)
    (pair : Pair V) (hnew : ∀ q pair', t.pairs q = some pair' → pair'.key ≠ pair.key)
    (hhash : pair.hash = hash pair.key) :
    ∃ list buckets orderedList idx' seg',
      insertToBucket (t.init p pair) (pair.hash % hashsize t.order) (.pair p) =
        some { t.init p pair with list, buckets } ∧
      listInsert (t.init p pair).orderedList .table (.pair p) = some orderedList ∧
      Represents hash { t.init p pair with list, buckets, orderedList, size := t.size + 1 } idx' seg'
        (live ++ [p]) := by
  have hplive : p ∉ live := fun hmem => by
    have hsome := (h.allocated p).2 hmem
    rw [hp] at hsome
    cases hsome
  have hpflat : p ∉ Segments.flat idx seg := fun hmem => hplive (h.perm.mem_iff.1 hmem)
  have hother : ∀ q, q ≠ p → (t.init p pair).pairs q = t.pairs q := fun q hq =>
    t.init_pairs_of_ne pair hq
  have hself := t.init_pairs_self p pair
  have hsegmented : Segmented (t.init p pair).list (t.init p pair).buckets idx seg :=
    ⟨listInit_around_of_notMem h.segmented.ring fun hmem => hpflat (mem_nodes.1 hmem),
      h.segmented.nodup, h.segmented.absent, h.segmented.ends⟩
  have hplace : InPlace (t.init p pair).pairs (hashsize t.order) seg := by
    intro i q hq
    have hqp : q ≠ p := fun heq => hplive (heq ▸ h.mem_live hq)
    rw [hother q hqp]
    exact h.place i q hq
  have hordered : Ring.Around (t.init p pair).orderedList .table (nodes live) :=
    listInit_around_of_notMem h.ordered fun hmem => hplive (mem_nodes.1 hmem)
  obtain ⟨list, buckets, idx', hinsert, hlen, -, hsegmented', hperm⟩ :=
    hsegmented.insert (h.index pair.hash).2 hpflat
  obtain ⟨prev, hprev, hordered'⟩ := hordered.insert_last fun hmem => hplive (mem_nodes.1 hmem)
  refine ⟨list, buckets, _, idx', _, hinsert, listInsert_eq hprev nofun, hsegmented',
    hlen.trans h.buckets, h.order, ?_, hplace.insert hself, ?_, ?_, ?_, ?_, ?_⟩
  · exact hperm.trans ((h.perm.cons p).trans (List.perm_append_singleton p live).symm)
  · rw [nodes, List.map_append]
    exact hordered'
  · intro q
    show ((t.init p pair).pairs q).isSome ↔ _
    by_cases hqp : q = p
    · rw [hqp, hself]
      simp
    · rw [hother q hqp, h.allocated]
      simp [hqp]
  · intro q pair' hq
    replace hq : (t.init p pair).pairs q = some pair' := hq
    by_cases hqp : q = p
    · rw [hqp, hself] at hq
      exact Option.some.inj hq ▸ hhash
    · rw [hother q hqp] at hq
      exact h.hashed q pair' hq
  · intro q r pair₁ pair₂ hq hr hkey
    replace hq : (t.init p pair).pairs q = some pair₁ := hq
    replace hr : (t.init p pair).pairs r = some pair₂ := hr
    by_cases hqp : q = p
    · by_cases hrp : r = p
      · exact hqp.trans hrp.symm
      · rw [hqp, hself] at hq
        rw [hother r hrp] at hr
        exact absurd (hkey.symm.trans (congrArg Pair.key (Option.some.inj hq)).symm)
          (hnew r pair₂ hr)
    · rw [hother q hqp] at hq
      by_cases hrp : r = p
      · rw [hrp, hself] at hr
        exact absurd (hkey.trans (congrArg Pair.key (Option.some.inj hr)).symm) (hnew q pair₁ hq)
      · rw [hother r hrp] at hr
        exact h.keys q r pair₁ pair₂ hq hr hkey
  · show t.size + 1 = _
    rw [h.size, List.length_append, List.length_singleton]

/-- The part of `hashtable_set` behind the rehashing -/
theorem Represents.store (h : Represents hash t idx seg live) (key : Bytes) (value : V)
    {malloc : Option ℕ} (hfresh : ∀ p, malloc = some p → t.pairs p = none) :
    ∃ done t', hashtableStore t key (hash key) value malloc = some (done, t') ∧
      (done = false → t' = t ∧ (2 ^ 64 - 1 - offsetofKey ≤ key.length ∨ malloc = none)) ∧
      (done = true → t'.Holds hash (objectSet key value (entries t.pairs live))) := by
  obtain ⟨found, hfound, hsome, hnone⟩ := h.find key
  rw [hashtableStore, hfound, Option.bind_eq_bind, Option.bind_some]
  cases found with
  | some p =>
    obtain ⟨-, pair, hpair, rfl⟩ := hsome p rfl
    obtain ⟨pre, post, hlive, hpre, hpost, hkpre, -⟩ := h.entries_around hpair
    refine ⟨true, _, ?_, nofun, fun _ => ⟨idx, seg, live, h.setValue hpair value, ?_⟩⟩
    · show ((t.pairs p).bind fun pair => some (true, _)) = _
      rw [hpair]
      rfl
    · have hother : ∀ l : List ℕ, p ∉ l →
          entries (Function.update t.pairs p (some { pair with value })) l = entries t.pairs l :=
        fun l hl => entries_congr fun q hq => by
          have hne : q ≠ p := fun heq => hl (heq ▸ hq)
          exact Function.update_of_ne hne _ _
      rw [hlive, entries_append, entries_append, entries_cons hpair, objectSet_append hkpre,
        entries_cons (Function.update_self p _ t.pairs), hother pre hpre, hother post hpost]
  | none =>
    dsimp only
    rw [initPair]
    split_ifs with hlong
    · exact ⟨false, t, rfl, fun _ => ⟨rfl, .inl hlong⟩, nofun⟩
    cases malloc with
    | none => exact ⟨false, t, rfl, fun _ => ⟨rfl, .inr rfl⟩, nofun⟩
    | some p =>
      have hp := hfresh p rfl
      obtain ⟨list, buckets, orderedList, idx', seg', hinsert, hlist, hnew⟩ :=
        h.add hp ⟨hash key, key, value⟩ (hnone rfl) rfl
      refine ⟨true, _, ?_, nofun, fun _ => ⟨idx', seg', live ++ [p], hnew, ?_⟩⟩
      · rw [Option.map_some, (h.index (hash key)).1]
        dsimp only
        rw [hinsert]
        show (listInsert (t.init p ⟨hash key, key, value⟩).orderedList .table (.pair p)).bind _ = _
        rw [hlist]
        rfl
      · have hold : entries (t.init p ⟨hash key, key, value⟩).pairs live = entries t.pairs live :=
          entries_congr fun q hq => t.init_pairs_of_ne _ fun heq => by
            have hsome := (h.allocated q).2 hq
            rw [heq, hp] at hsome
            cases hsome
        rw [objectSet_fresh (entries_absent (hnone rfl) live)]
        show _ = entries (t.init p ⟨hash key, key, value⟩).pairs (live ++ [p])
        rw [entries_append, hold, entries_cons (t.init_pairs_self p _)]
        rfl

/-- `hashtable_set` -/
theorem Represents.set (h : Represents hash t idx seg live) (key : Bytes) (value : V)
    (alloc : Alloc) (hfresh : ∀ p, alloc.pair = some p → t.pairs p = none) :
    ∃ done t', hashtableSet hash t key value alloc = some (done, t') ∧
      (done = false → t'.Holds hash (entries t.pairs live) ∧
        (alloc.buckets = false ∨ alloc.pair = none ∨ 2 ^ 64 - 1 - offsetofKey ≤ key.length ∨
          2 ^ 59 ≤ t.size)) ∧
      (done = true → t'.Holds hash (objectSet key value (entries t.pairs live))) := by
  rw [hashtableSet]
  split_ifs with hfull
  · obtain ⟨done, t₁, hrehash, hfail, hok⟩ := h.rehash alloc.buckets
    rw [hrehash]
    cases done with
    | false =>
      obtain ⟨rfl, hwhy⟩ := hfail rfl
      refine ⟨false, _, rfl, fun _ => ⟨⟨idx, seg, live, h, rfl⟩, hwhy.imp_right fun horder => ?_⟩,
        nofun⟩
      rw [hashsize, horder] at hfull
      exact .inr (.inr hfull)
    | true =>
      obtain ⟨hpairs, idx', seg', h₁⟩ := hok rfl
      rw [← hpairs] at hfresh ⊢
      obtain ⟨done, t₂, hstore, hfail₂, hok₂⟩ := h₁.store key value hfresh
      refine ⟨done, t₂, hstore, fun hdone => ?_, hok₂⟩
      obtain ⟨rfl, hwhy⟩ := hfail₂ hdone
      exact ⟨⟨idx', seg', live, h₁, rfl⟩, .inr (hwhy.elim (.inr ∘ .inl) .inl)⟩
  · obtain ⟨done, t₂, hstore, hfail₂, hok₂⟩ := h.store key value hfresh
    refine ⟨done, t₂, hstore, fun hdone => ?_, hok₂⟩
    obtain ⟨rfl, hwhy⟩ := hfail₂ hdone
    exact ⟨⟨idx, seg, live, h, rfl⟩, .inr (hwhy.elim (.inr ∘ .inl) .inl)⟩

/-- `hashtable_del` -/
theorem Represents.del (h : Represents hash t idx seg live) (key : Bytes) :
    ∃ t', hashtableDel hash t key =
        some (decide (key ∈ (entries t.pairs live).map Prod.fst), t') ∧
      t'.Holds hash (objectDel key (entries t.pairs live)) := by
  obtain ⟨found, hfound, hsome, hnone⟩ := h.find key
  rw [hashtableDel, hashtableDoDel, hfound, Option.bind_eq_bind, Option.bind_some]
  cases found with
  | none =>
    have habsent := entries_absent (hnone rfl) live
    refine ⟨t, by rw [decide_eq_false habsent]; rfl, idx, seg, live, h, ?_⟩
    exact objectDel_eq_self habsent
  | some p =>
    obtain ⟨hp, pair, hpair, rfl⟩ := hsome p rfl
    obtain ⟨pre, post, rfl, hpre, hpost, hkpre, hkpost⟩ := h.entries_around hpair
    obtain ⟨l, l', hseg⟩ := List.append_of_mem hp
    obtain ⟨hindex, hi⟩ := h.index (hash pair.key)
    obtain ⟨list, hbucket, hlist, hsegmented, hperm⟩ := h.segmented.remove hi hseg
    have hring := h.ordered
    rw [nodes, List.map_append, List.map_cons] at hring
    obtain ⟨-, m', hremove, hring'⟩ := hring.remove
    obtain ⟨orderedList, hordered, rfl⟩ := listRemove_free hremove
    have hring'' : Ring.Around (listFree orderedList (.pair p)) .table (nodes (pre ++ post)) := by
      rw [nodes, List.map_append]
      exact hring'
    have hmem : pair.key ∈ (entries t.pairs (pre ++ p :: post)).map Prod.fst := by
      rw [entries_append, entries_cons hpair]
      simp
    have hother : ∀ q, q ≠ p → Function.update t.pairs p none q = t.pairs q := fun q hq =>
      Function.update_of_ne hq _ _
    have hfreed : ∀ q pair', Function.update t.pairs p none q = some pair' →
        t.pairs q = some pair' := by
      intro q pair' hq
      by_cases hqp : q = p
      · rw [hqp, Function.update_self] at hq
        cases hq
      · exact hother q hqp ▸ hq
    have hentries : ∀ l : List ℕ, p ∉ l →
        entries (Function.update t.pairs p none) l = entries t.pairs l := fun l hl =>
      entries_congr fun q hq => hother q fun heq => hl (heq ▸ hq)
    refine ⟨{ ({ t with
          buckets := t.buckets.set (hash pair.key % hashsize t.order) (ends (l ++ l'))
          list, orderedList } : Hashtable V).free p with size := t.size - 1 },
      ?_, idx, _, pre ++ post,
      ⟨hsegmented, ?_, h.order, ?_, ?_, hring'', ?_, ?_, ?_, ?_⟩, ?_⟩
    · rw [decide_eq_true hmem, hindex]
      dsimp only
      rw [h.segmented.ends _ hi]
      simp only [Option.bind_eq_bind, Option.bind_some, hbucket, hlist, hordered, hpair]
      rfl
    · exact List.length_set.trans h.buckets
    · have hlive : (pre ++ p :: post).Perm (p :: (pre ++ post)) := List.perm_middle
      exact List.Perm.cons_inv ((hperm.symm.trans h.perm).trans hlive)
    · intro i q hq
      have hmem' : q ∈ Segments.flat idx (Function.update seg (hash pair.key % hashsize t.order)
          (l ++ l')) := hsegmented.mem_flat hq
      have hnodup := hperm.nodup_iff.1 h.segmented.nodup_flat
      have hqp : q ≠ p := fun heq => (List.nodup_cons.1 hnodup).1 (heq ▸ hmem')
      have hold : q ∈ seg i := by
        by_cases hi' : i = hash pair.key % hashsize t.order
        · rw [hi', Function.update_self] at hq
          rw [hi', hseg]
          exact (List.sublist_cons_self p l').append_left l |>.mem hq
        · rwa [Function.update_of_ne hi'] at hq
      show ∃ pair', Function.update t.pairs p none q = some pair' ∧ _
      rw [hother q hqp]
      exact h.place i q hold
    · intro q
      show (Function.update t.pairs p none q).isSome ↔ _
      by_cases hqp : q = p
      · rw [hqp, Function.update_self]
        simp [hpre, hpost]
      · rw [hother q hqp, h.allocated]
        simp [hqp]
    · exact fun q pair' hq => h.hashed q pair' (hfreed q pair' hq)
    · exact fun q r pair₁ pair₂ hq hr => h.keys q r pair₁ pair₂ (hfreed q pair₁ hq)
        (hfreed r pair₂ hr)
    · show t.size - 1 = _
      rw [h.size, List.length_append, List.length_append, List.length_cons]
      omega
    · rw [entries_append, entries_cons hpair, objectDel_append hkpre hkpost]
      show _ = entries (Function.update t.pairs p none) (pre ++ post)
      rw [entries_append, hentries pre hpre, hentries post hpost]

/-- The loop of `hashtable_do_clear` frees the pairs of the list. -/
theorem clearFrom_frees {old : Ring.Links ListPtr} : ∀ {rest : List ℕ} {a : ListPtr}
    {t : Hashtable V} {n : ℕ}, Ring.Path old a (nodes rest) .table → rest.Nodup →
    (∀ p ∈ rest, t.list.next (.pair p) = old.next (.pair p)) →
    (∀ p ∈ rest, (t.pairs p).isSome) → rest.length < n →
    ∃ t', clearFrom n t (Ring.firstOf (nodes rest) .table) = some t' ∧ t'.order = t.order ∧
      (∀ p ∈ rest, t'.pairs p = none) ∧ ∀ p, p ∉ rest → t'.pairs p = t.pairs p
  | [], _, t, n + 1, _, _, _, _, _ => ⟨t, rfl, rfl, nofun, fun _ _ => rfl⟩
  | p :: rest, a, t, n + 1, hpath, hnodup, hnext, hlive, hn => by
    obtain ⟨pair, hpair⟩ := Option.isSome_iff_exists.1 (hlive p List.mem_cons_self)
    obtain ⟨hp, hnodup'⟩ := List.nodup_cons.1 hnodup
    have hother : ∀ q, q ≠ p → (t.free p).pairs q = t.pairs q := fun q hq =>
      Function.update_of_ne hq _ _
    have hne : ∀ q ∈ rest, q ≠ p := fun q hq heq => hp (heq ▸ hq)
    have hto : t.list.next (.pair p) = some (Ring.firstOf (nodes rest) .table) := by
      rw [hnext p List.mem_cons_self]
      exact hpath.2.next_eq
    have hleft : ∀ q ∈ rest, (t.free p).list.next (.pair q) = old.next (.pair q) := by
      intro q hq
      rw [← hnext q (List.mem_cons_of_mem p hq)]
      exact Function.update_of_ne (fun heq => hne q hq (ListPtr.pair.inj heq)) _ _
    obtain ⟨t', hloop, horder, hfreed, hkept⟩ :=
      clearFrom_frees hpath.2 hnodup' hleft
        (fun q hq => (hother q (hne q hq)).symm ▸ hlive q (List.mem_cons_of_mem p hq))
        (Nat.lt_of_succ_lt_succ hn)
    refine ⟨t', ?_, horder, fun q hq => ?_, fun q hq => ?_⟩
    · rw [nodes, List.map_cons, Ring.firstOf, List.head?_cons, Option.getD_some, clearFrom, hto, hpair]
      exact hloop
    · rcases List.mem_cons.1 hq with rfl | hq
      · rw [hkept q hp]
        exact Function.update_self q none t.pairs
      · exact hfreed q hq
    · rw [List.mem_cons, not_or] at hq
      rw [hkept q hq.2, hother q hq.1]

/-- `hashtable_clear` -/
theorem Represents.clear (h : Represents hash t idx seg live) :
    ∃ t', hashtableClear t = some t' ∧ t'.Holds hash [] := by
  have hpath := h.segmented.ring.path
  have hlength : (Segments.flat idx seg).length < t.size + 1 := by
    rw [h.perm.length_eq, h.size]
    exact Nat.lt_succ_self _
  obtain ⟨t', hloop, horder, hfreed, hkept⟩ := clearFrom_frees (t := t) hpath
    h.segmented.nodup_flat (fun _ _ => rfl)
    (fun p hp => (h.allocated p).2 (h.perm.mem_iff.1 hp)) hlength
  have hnone : ∀ p, t'.pairs p = none := by
    intro p
    by_cases hp : p ∈ Segments.flat idx seg
    · exact hfreed p hp
    · rw [hkept p hp, ← Option.not_isSome_iff_eq_none, h.allocated, ← h.perm.mem_iff]
      exact hp
  have hlen : (List.replicate (hashsize t'.order) emptyBucket).length = hashsize t'.order :=
    List.length_replicate
  refine ⟨{ t' with
      buckets := List.replicate (hashsize t'.order) emptyBucket
      list := listInit t'.list .table
      orderedList := listInit t'.orderedList .table
      size := 0 },
    ?_, [], fun _ => [], [], ⟨⟨listInit_around t'.list _, List.nodup_nil,
    fun _ _ => rfl, fun i hi => ?_⟩, hlen, horder ▸ h.order, .nil, (fun _ _ hp => nomatch hp),
    listInit_around t'.orderedList _, fun p => ?_, fun p pair hp => ?_, fun p q pair _ hp => ?_,
    rfl⟩, rfl⟩
  · rw [hashtableClear, hashtableDoClear, hpath.next_eq]
    simp only [Option.bind_eq_bind, Option.bind_some, hloop]
    rfl
  · rw [hlen] at hi
    rw [List.getElem?_replicate, if_pos hi]
    rfl
  · show (t'.pairs p).isSome ↔ p ∈ []
    rw [hnone p]
    simp
  · exact absurd ((hnone p).symm.trans hp) nofun
  · exact absurd ((hnone p).symm.trans hp) nofun

/-- The step of an iteration -/
theorem hashtableIterNext_eq {a : ListPtr} {rest : List ℕ}
    (h : Ring.Path t.orderedList a (nodes rest) .table) :
    hashtableIterNext t a = some (rest.head?.map ListPtr.pair) := by
  rw [hashtableIterNext, h.next_eq]
  cases rest <;> rfl

/-- The loop of an iteration goes over the pairs in the order of their insertion. -/
theorem iterateFrom_eq : ∀ {rest : List ℕ} {a : ListPtr} {n : ℕ},
    Ring.Path t.orderedList a (nodes rest) .table → (∀ p ∈ rest, (t.pairs p).isSome) →
    rest.length < n →
    iterateFrom t n (rest.head?.map ListPtr.pair) = some (entries t.pairs rest)
  | [], _, n + 1, _, _, _ => rfl
  | p :: rest, a, n + 1, hpath, hlive, hn => by
    obtain ⟨pair, hpair⟩ := Option.isSome_iff_exists.1 (hlive p List.mem_cons_self)
    have hloop := iterateFrom_eq hpath.2 (fun q hq => hlive q (List.mem_cons_of_mem p hq))
      (Nat.lt_of_succ_lt_succ hn)
    rw [List.head?_cons, Option.map_some, iterateFrom, hashtableIterKey, hashtableIterValue,
      orderedListToPair, hpair, hashtableIterNext_eq hpath.2]
    simp only [Option.bind_eq_bind, Option.bind_some, Option.map_some, hloop]
    rw [entries_cons hpair]
    rfl

/-- An iteration -/
theorem Represents.iterate (h : Represents hash t idx seg live) :
    hashtableIterate t = some (entries t.pairs live) := by
  rw [hashtableIterate, hashtableIter, hashtableIterNext_eq h.ordered.path, Option.bind_eq_bind,
    Option.bind_some]
  exact iterateFrom_eq h.ordered.path (fun p => (h.allocated p).2) (h.size ▸ Nat.lt_succ_self _)

/-- The table after `hashtable_init` -/
theorem holds_init : (hashtableInit : Hashtable V).Holds hash [] := by
  refine ⟨[], fun _ => [], [], ⟨⟨listInit_around _ _, List.nodup_nil, fun _ _ => rfl,
    fun i hi => ?_⟩, List.length_replicate, ?_, .nil, (fun _ _ hp => nomatch hp),
    listInit_around _ _, fun p => ?_, (fun _ _ hp => nomatch hp),
    (fun _ _ _ _ hp => nomatch hp), rfl⟩, rfl⟩
  · have hlen : i < hashsize initialHashtableOrder := hi.trans_eq List.length_replicate
    show (List.replicate _ _)[i]? = _
    rw [List.getElem?_replicate, if_pos hlen]
    rfl
  · show initialHashtableOrder < 60
    decide
  · simp [hashtableInit]

end

end

end Jansson
