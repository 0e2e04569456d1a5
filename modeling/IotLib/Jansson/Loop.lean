/-
  Circular references. `json_dump_callback` and `json_deep_copy` keep the containers above the one
  they are at in a hash table, under their printed addresses (`jsonp_loop_check`).

  The hash table is the list of its members, which `HashtableMap` is about.
-/
import IotLib.Lib.Descent
import IotLib.Jansson.Inverse

namespace Jansson

/-! ## Printed addresses -/

/-- The conversion `%p` -/
def pointerText (address : UInt64) : Bytes :=
  if address = 0 then ascii "(nil)"
  else ascii "0x" ++ (Nat.digits 16 address.toNat).reverse.map (hexDigit false)

/-- The digit that is printed -/
def hexValue (b : UInt8) : ℕ := if b.toNat < 0x57 then b.toNat - 0x30 else b.toNat - 0x57

theorem hexValue_hexDigit {d : ℕ} (h : d < 16) : hexValue (hexDigit false d) = d := by
  interval_cases d <;> decide

theorem map_hexDigit_injective {l l' : List ℕ} (hl : ∀ d ∈ l, d < 16) (hl' : ∀ d ∈ l', d < 16)
    (h : l.map (hexDigit false) = l'.map (hexDigit false)) : l = l' := by
  have hback : ∀ l : List ℕ, (∀ d ∈ l, d < 16) → (l.map (hexDigit false)).map hexValue = l := by
    intro l hl
    have hid : ∀ d ∈ l, (hexValue ∘ hexDigit false) d = id d := fun d hd =>
      hexValue_hexDigit (hl d hd)
    rw [List.map_map, List.map_congr_left hid, List.map_id]
  rw [← hback l hl, h, hback l' hl']

/-- Two addresses are not printed alike. -/
theorem pointerText_injective : Function.Injective pointerText := by
  intro a b h
  rw [pointerText, pointerText] at h
  split_ifs at h with ha hb hb
  · rw [ha, hb]
  · cases h
  · cases h
  · have hdigits : (Nat.digits 16 a.toNat).reverse = (Nat.digits 16 b.toNat).reverse := by
      refine map_hexDigit_injective (fun d hd => ?_) (fun d hd => ?_)
        (List.append_cancel_left h)
      · exact Nat.digits_lt_base (by decide) (List.mem_reverse.1 hd)
      · exact Nat.digits_lt_base (by decide) (List.mem_reverse.1 hd)
    exact UInt64.toNat_inj.1 (Nat.digits_inj_iff.1 (List.reverse_injective hdigits))

/-! ## The containers above -/

/-- The set `parents` -/
abbrev LoopSet := List (Bytes × Unit)

/-- `jsonp_loop_check` -/
def jsonpLoopCheck (parents : LoopSet) (key : Bytes) : Option LoopSet :=
  if (objectGet key parents).isSome then none else some (objectSet key () parents)

/-- `hashtable_del` takes back what the check put in. -/
theorem objectDel_loopCheck {parents parents' : LoopSet} {key : Bytes}
    (h : jsonpLoopCheck parents key = some parents') : objectDel key parents' = parents := by
  rw [jsonpLoopCheck] at h
  split_ifs at h with hkey
  have habsent : key ∉ parents.map Prod.fst := fun hmem => hkey (objectGet_isSome_iff.2 hmem)
  obtain rfl := Option.some.inj h
  rw [objectSet_fresh habsent, objectDel, List.filter_append, List.filter_cons_of_neg (by simp),
    List.filter_nil, List.append_nil]
  refine List.filter_eq_self.2 fun m hm => ?_
  have hne : m.1 ≠ key := fun heq => habsent (heq ▸ List.mem_map_of_mem hm)
  exact decide_eq_true hne

section
variable {R : Type}

/-- A value and one that it refers to -/
def Heap.Child (heap : Heap R) (p q : Ref) : Prop :=
  ∃ i node, p = .node i ∧ heap[i]? = some node ∧ q ∈ node.children

def Heap.Reaches (heap : Heap R) : Ref → Ref → Prop := Relation.ReflTransGen heap.Child

/-- A cycle is reached from the value. -/
def Heap.CycleFrom (heap : Heap R) (p : Ref) : Prop :=
  ∃ q, heap.Reaches p q ∧ Relation.TransGen heap.Child q q

/-- The value is one of the heap. -/
def Heap.Valid (heap : Heap R) : Ref → Prop
  | .node i => i < heap.length
  | _ => True

/-- Values refer to values. -/
def Heap.Closed (heap : Heap R) : Prop := ∀ p q, heap.Child p q → heap.Valid q

variable {heap : Heap R}

/-- The containers of a path, which are different -/
structure Above (heap : Heap R) (path : List Ref) : Prop where
  nodup : path.Nodup
  containers : ∀ p ∈ path, ∃ i < heap.length, p = .node i ∧ isContainer heap p = true

/-- The set has them. -/
structure Ancestors (address : ℕ → UInt64) (heap : Heap R) (parents : LoopSet) (path : List Ref) :
    Prop extends Above heap path where
  tracks : ∀ i < heap.length,
    (objectGet (pointerText (address i)) parents).isSome ↔ Ref.node i ∈ path

variable {address : ℕ → UInt64} {parents : LoopSet} {path : List Ref} {i : ℕ}

theorem Above.nil : Above heap [] := ⟨List.nodup_nil, nofun⟩

theorem Above.cons (h : Above heap path) (hi : i < heap.length)
    (hcontainer : isContainer heap (.node i) = true) (hnot : .node i ∉ path) :
    Above heap (.node i :: path) := by
  refine ⟨List.nodup_cons.2 ⟨hnot, h.nodup⟩, fun p hp => ?_⟩
  rcases List.mem_cons.1 hp with rfl | hp
  · exact ⟨i, hi, rfl, hcontainer⟩
  · exact h.containers p hp

theorem Above.length_le (h : Above heap path) : path.length ≤ heap.length := by
  have hsub : path ⊆ (List.range heap.length).map .node := by
    intro q hq
    obtain ⟨i, hi, rfl, -⟩ := h.containers q hq
    exact List.mem_map.2 ⟨i, List.mem_range.2 hi, rfl⟩
  have hle := (h.nodup.subperm hsub).length_le
  rwa [List.length_map, List.length_range] at hle

theorem Ancestors.nil : Ancestors address heap [] [] where
  toAbove := .nil
  tracks := by simp [objectGet]

/-- The check finds what is above. -/
theorem Ancestors.check_mem (h : Ancestors address heap parents path) (hi : i < heap.length)
    (hmem : .node i ∈ path) :
    jsonpLoopCheck parents (pointerText (address i)) = none := by
  rw [jsonpLoopCheck, if_pos ((h.tracks i hi).2 hmem)]

/-- The check lets other containers pass, and keeps them. -/
theorem Ancestors.check_new (h : Ancestors address heap parents path)
    (hinj : ∀ i < heap.length, ∀ j < heap.length, address i = address j → i = j)
    (hi : i < heap.length) (hcontainer : isContainer heap (.node i) = true)
    (hnot : .node i ∉ path) :
    ∃ parents', jsonpLoopCheck parents (pointerText (address i)) = some parents' ∧
      Ancestors address heap parents' (.node i :: path) := by
  refine ⟨_, if_neg (mt (h.tracks i hi).1 hnot), h.cons hi hcontainer hnot, fun j hj => ?_⟩
  rw [objectGet_objectSet, List.mem_cons, ← h.tracks j hj]
  by_cases hji : j = i
  · simp [hji]
  · have hne : pointerText (address i) ≠ pointerText (address j) := fun heq =>
      hji (hinj j hj i hi (pointerText_injective heq).symm)
    rw [if_neg hne]
    simp [hji]

end

end Jansson
