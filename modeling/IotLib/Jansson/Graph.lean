/-
  JSON values in memory (`value.c`). `true`, `false` and `null` are singletons, the other values are
  nodes; arrays and objects hold references, which may be shared and may be circular.

  An object is the list of its members in the order of the hash table's list: the one of insertion.
-/
import IotLib.Jansson.Value

namespace Jansson

section
variable {R : Type}

/-- `json_t *` -/
inductive Ref where
  | true
  | false
  | null
  | node (n : Nat)
deriving DecidableEq, Repr

inductive Node (R : Type) where
  | object (members : List (Bytes × Ref))
  | array (elems : List Ref)
  | string (value : Bytes)
  | integer (value : Int64)
  | real (value : R)

/-- What a value refers to -/
def Node.children : Node R → List Ref
  | .object ms => ms.map Prod.snd
  | .array ps => ps
  | _ => []

/-- The values that were allocated. -/
abbrev Heap (R : Type) := List (Node R)

/-! ## Objects -/

/-- `json_object_deln` -/
def objectDel {α : Type} (key : Bytes) (ms : List (Bytes × α)) : List (Bytes × α) :=
  ms.filter (·.1 ≠ key)

/-- An object after insertions, replacements and deletions. -/
inductive Built {α : Type} : List (Bytes × α) → Prop where
  | empty : Built []
  | set {key : Bytes} {value : α} {ms : List (Bytes × α)} : Built ms → Built (objectSet key value ms)
  | del {key : Bytes} {ms : List (Bytes × α)} : Built ms → Built (objectDel key ms)

theorem objectSet_keys {α : Type} (key : Bytes) (value : α) (ms : List (Bytes × α)) :
    (objectSet key value ms).map Prod.fst =
      if key ∈ ms.map Prod.fst then ms.map Prod.fst else ms.map Prod.fst ++ [key] := by
  induction ms with
  | nil => rfl
  | cons m ms ih =>
    obtain ⟨k, v⟩ := m
    rw [objectSet]
    by_cases h : k = key
    · rw [if_pos h, if_pos (by simp [h])]
      rfl
    · rw [if_neg h, List.map_cons, ih, List.map_cons]
      by_cases hm : key ∈ ms.map Prod.fst
      · rw [if_pos hm, if_pos (List.mem_cons_of_mem _ hm)]
      · have hno : key ∉ k :: ms.map Prod.fst := by
          rw [List.mem_cons, not_or]
          exact ⟨Ne.symm h, hm⟩
        rw [if_neg hm, if_neg hno]
        rfl

/-- The keys of an object are distinct. -/
theorem Built.nodup {α : Type} {ms : List (Bytes × α)} (h : Built ms) :
    (ms.map Prod.fst).Nodup := by
  induction h with
  | empty => exact List.nodup_nil
  | @set key value ms _ ih =>
    rw [objectSet_keys]
    split_ifs with hm
    · exact ih
    · rw [← List.concat_eq_append]
      exact ih.concat hm
  | @del key ms _ ih => exact ih.sublist (List.filter_sublist.map Prod.fst)

/-- Every object of the heap was built. -/
def Heap.Ok (heap : Heap R) : Prop := ∀ ms, Node.object ms ∈ heap → Built ms

/-! ## Trees -/

variable (heap : Heap R)

/-- The members have the same keys, and related values. -/
def SameKeys {α β : Type} (A : α → β → Prop) : List (Bytes × α) → List (Bytes × β) → Prop :=
  List.Forall₂ fun m m' => m.1 = m'.1 ∧ A m.2 m'.2

/-- The reference leads to a tree of nesting at most `n`. -/
def Reads : Nat → Ref → Json R → Prop
  | 0, _, _ => False
  | _ + 1, .true, v => v = .true
  | _ + 1, .false, v => v = .false
  | _ + 1, .null, v => v = .null
  | n + 1, .node i, v =>
    match heap[i]? with
    | none => False
    | some (.string s) => v = .string s
    | some (.integer k) => v = .integer k
    | some (.real r) => v = .real r
    | some (.array refs) => ∃ vs, v = .array vs ∧ List.Forall₂ (Reads n) refs vs
    | some (.object ms) => ∃ vs, v = .object vs ∧ SameKeys (Reads n) ms vs

/-- An acyclic value. -/
def Denotes (p : Ref) (v : Json R) : Prop := ∃ n, Reads heap n p v

/-! ## Equality -/

/-- The kind of a value. -/
inductive JsonType where
  | object | array | string | integer | real | true | false | null
deriving DecidableEq

/-- `json_typeof`; none for a null pointer. -/
def jsonTypeof : Ref → Option JsonType
  | .true => some .true
  | .false => some .false
  | .null => some .null
  | .node i => (heap[i]?).map fun
    | .object _ => .object
    | .array _ => .array
    | .string _ => .string
    | .integer _ => .integer
    | .real _ => .real

/-- The loop of `json_array_equal`. -/
def arrayEqual (equal : Ref → Ref → Option Bool) : List Ref → List Ref → Option Bool
  | p :: ps, q :: qs =>
    (equal p q).bind fun b => if b then arrayEqual equal ps qs else some false
  | _, _ => some true

/-- The loop of `json_object_equal`. -/
def objectEqual (equal : Ref → Ref → Option Bool) (other : List (Bytes × Ref)) :
    List (Bytes × Ref) → Option Bool
  | [] => some true
  | (key, p) :: ms =>
    match objectGet key other with
    | none => some false
    | some q => (equal p q).bind fun b => if b then objectEqual equal other ms else some false

/-- `json_equal`, none when it has not returned after `n` nested calls;
    `realEq` compares doubles. -/
def jsonEqual (realEq : R → R → Bool) : Nat → Ref → Ref → Option Bool
  | 0, _, _ => none
  | n + 1, p, q =>
    if jsonTypeof heap p = none ∨ jsonTypeof heap p ≠ jsonTypeof heap q then some false
    else if p = q then some true
    else
      match p, q with
      | .node i, .node j =>
        match heap[i]?, heap[j]? with
        | some (.object ms), some (.object ns) =>
          if ms.length ≠ ns.length then some false
          else objectEqual (jsonEqual realEq n) ns ms
        | some (.array ps), some (.array qs) =>
          if ps.length ≠ qs.length then some false else arrayEqual (jsonEqual realEq n) ps qs
        | some (.string s), some (.string t) => some (s == t)
        | some (.integer a), some (.integer b) => some (a == b)
        | some (.real a), some (.real b) => some (realEq a b)
        | _, _ => some false
      | _, _ => some false

end

end Jansson
