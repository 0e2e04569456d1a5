/-
  Calls that fail: which of them leave the buffer as it was, and the run without them.
-/
import IotLib.Blobmsg.Append

namespace Blobmsg.Machine

section
variable {alloc : Bool} {buf buf' : Buf}

/-! ## The functions of blob.c -/

theorem blobBufGrow_refused {required : ℤ} (h : blobBufGrow alloc buf required = some (false, buf')) :
    buf' = buf := by
  obtain ⟨offset, -, h⟩ := Option.bind_eq_some_iff.1 h
  split_ifs at h with hlimit
  · exact (Prod.mk.inj (Option.some.inj h)).2.symm
  · split at h
    · exact (Prod.mk.inj (Option.some.inj h)).2.symm
    · cases (Prod.mk.inj (Option.some.inj h)).1

theorem blobAdd_null {pos : BufPtr} {id : ℕ} {payload : ℤ}
    (h : blobAdd alloc buf pos id payload = some (none, buf')) : buf' = buf := by
  obtain ⟨offset, -, h⟩ := Option.bind_eq_some_iff.1 h
  obtain ⟨⟨attr, buf₁⟩, hgrow, h⟩ := Option.bind_eq_some_iff.1 h
  cases attr with
  | some attr =>
    obtain ⟨buf₂, -, heq⟩ := Option.map_eq_some_iff.1 h
    cases (Prod.mk.inj heq).1
  | none =>
    obtain rfl := (Prod.mk.inj (Option.some.inj h)).2
    split_ifs at hgrow
    · obtain ⟨⟨ok, buf₂⟩, hgrow, heq⟩ := Option.map_eq_some_iff.1 hgrow
      obtain ⟨hok, rfl⟩ := Prod.mk.inj heq
      cases ok with
      | false => exact blobBufGrow_refused hgrow
      | true => cases hok
    · cases (Prod.mk.inj (Option.some.inj hgrow)).1

theorem blobNew_null {id : ℕ} {payload : ℤ} (h : blobNew alloc buf id payload = some (none, buf')) :
    buf' = buf := by
  obtain ⟨pos, -, h⟩ := Option.bind_eq_some_iff.1 h
  obtain ⟨⟨attr, buf₁⟩, hadd, h⟩ := Option.bind_eq_some_iff.1 h
  cases attr with
  | none =>
    obtain rfl := (Prod.mk.inj (Option.some.inj h)).2
    exact blobAdd_null hadd
  | some attr =>
    simp only [Option.bind_eq_some_iff, Option.map_eq_some_iff, Prod.mk.injEq] at h
    obtain ⟨_, _, _, _, _, _, _, _, _, _, heq, _⟩ := h
    cases heq

theorem blobPutRaw_null {ptr : Option Bytes} (h : blobPutRaw alloc buf ptr = some (none, buf')) :
    buf' = buf := by
  unfold blobPutRaw at h
  split at h
  · exact (Prod.mk.inj (Option.some.inj h)).2.symm
  split_ifs at h
  · exact (Prod.mk.inj (Option.some.inj h)).2.symm
  obtain ⟨pos, -, h⟩ := Option.bind_eq_some_iff.1 h
  obtain ⟨⟨attr, buf₁⟩, hadd, h⟩ := Option.bind_eq_some_iff.1 h
  cases attr with
  | none =>
    obtain rfl := (Prod.mk.inj (Option.some.inj h)).2
    exact blobAdd_null hadd
  | some attr =>
    simp only [Option.bind_eq_some_iff, Option.map_eq_some_iff, Prod.mk.injEq] at h
    obtain ⟨_, _, _, _, _, _, _, _, heq, _⟩ := h
    cases heq

theorem blobPut_null {id : ℕ} {payload : Payload}
    (h : blobPut alloc buf id payload = some (none, buf')) : buf' = buf := by
  obtain ⟨⟨attr, buf₁⟩, hnew, h⟩ := Option.bind_eq_some_iff.1 h
  cases attr with
  | none =>
    obtain rfl := (Prod.mk.inj (Option.some.inj h)).2
    exact blobNew_null hnew
  | some attr =>
    cases payload with
    | room len => cases (Prod.mk.inj (Option.some.inj h)).1
    | bytes bs =>
      obtain ⟨_, -, h⟩ := Option.bind_eq_some_iff.1 h
      obtain ⟨_, -, heq⟩ := Option.map_eq_some_iff.1 h
      cases (Prod.mk.inj heq).1

/-- `blob_nest_start` gives up the head. -/
theorem blobNestStart_null {id : ℕ} (h : blobNestStart alloc buf id = some (none, buf')) :
    buf' = { buf with head := none } := by
  obtain ⟨offset, -, h⟩ := Option.bind_eq_some_iff.1 h
  obtain ⟨⟨attr, buf₁⟩, hnew, heq⟩ := Option.map_eq_some_iff.1 h
  obtain ⟨hcookie, rfl⟩ := Prod.mk.inj heq
  cases attr with
  | some attr => cases hcookie
  | none => rw [blobNew_null hnew]

/-! ## The functions of blobmsg.c -/

theorem blobmsgNew_null {type : ℕ} {name : Bytes} {payloadLen : ℤ}
    (h : blobmsgNew alloc buf type name payloadLen = some (none, buf')) : buf' = buf := by
  obtain ⟨⟨attr, buf₁⟩, hnew, h⟩ := Option.bind_eq_some_iff.1 h
  cases attr with
  | none =>
    obtain rfl := (Prod.mk.inj (Option.some.inj h)).2
    exact blobNew_null hnew
  | some attr =>
    simp only [Option.bind_eq_some_iff, Option.map_eq_some_iff, Prod.mk.injEq] at h
    obtain ⟨_, _, _, _, _, _, heq, _⟩ := h
    cases heq

theorem blobmsgAddField_failed {type : ℕ} {name : Option CStr} {data : Bytes}
    (h : blobmsgAddField alloc buf type name data = some (false, buf')) : buf' = buf := by
  obtain ⟨⟨r, buf₁⟩, hnew, h⟩ := Option.bind_eq_some_iff.1 h
  cases r with
  | none =>
    obtain rfl := (Prod.mk.inj (Option.some.inj h)).2
    exact blobmsgNew_null hnew
  | some r =>
    simp only [Option.bind_eq_some_iff, Option.map_eq_some_iff, Prod.mk.injEq] at h
    obtain ⟨_, _, _, _, heq, _⟩ := h
    cases heq

theorem blobmsgOpenNested_null {name : Option CStr} {array : Bool}
    (h : blobmsgOpenNested alloc buf name array = some (none, buf')) : buf' = buf := by
  obtain ⟨offset, -, h⟩ := Option.bind_eq_some_iff.1 h
  obtain ⟨⟨r, buf₁⟩, hnew, h⟩ := Option.bind_eq_some_iff.1 h
  cases r with
  | none =>
    obtain rfl := (Prod.mk.inj (Option.some.inj h)).2
    exact blobmsgNew_null hnew
  | some r =>
    simp only [Option.bind_eq_some_iff, Option.map_eq_some_iff, Prod.mk.injEq] at h
    obtain ⟨_, _, _, _, _, _, heq, _⟩ := h
    cases heq

theorem blobmsgAllocStringBuffer_null {name : Option CStr} {maxlen : ℕ}
    (h : blobmsgAllocStringBuffer alloc buf name maxlen = some (none, buf')) : buf' = buf := by
  obtain ⟨⟨r, buf₁⟩, hnew, h⟩ := Option.bind_eq_some_iff.1 h
  cases r with
  | none =>
    obtain rfl := (Prod.mk.inj (Option.some.inj h)).2
    exact blobmsgNew_null hnew
  | some r =>
    simp only [Option.bind_eq_some_iff, Option.map_eq_some_iff, Prod.mk.injEq] at h
    obtain ⟨_, _, _, _, _, _, _, _, _, _, _, _, _, _, heq, _⟩ := h
    cases heq

theorem blobmsgReallocStringBuffer_null {maxlen : ℕ}
    (h : blobmsgReallocStringBuffer alloc buf maxlen = some (none, buf')) : buf' = buf := by
  obtain ⟨_, -, h⟩ := Option.bind_eq_some_iff.1 h
  obtain ⟨_, -, h⟩ := Option.bind_eq_some_iff.1 h
  obtain ⟨_, -, h⟩ := Option.bind_eq_some_iff.1 h
  obtain ⟨⟨ok, buf₁⟩, hgrow, h⟩ := Option.bind_eq_some_iff.1 h
  cases ok with
  | true =>
    simp only [if_true, Option.bind_eq_some_iff, Option.map_eq_some_iff, Prod.mk.injEq] at h
    obtain ⟨_, _, _, _, _, _, heq, _⟩ := h
    cases heq
  | false =>
    obtain rfl := (Prod.mk.inj (Option.some.inj h)).2
    split_ifs at hgrow
    · exact blobBufGrow_refused hgrow
    · cases (Prod.mk.inj (Option.some.inj hgrow)).1

/-! ## Calls and runs -/

/-- The call opens a nest with `blob_nest_start`. -/
def Call.IsNestStart : Call → Prop
  | .nestStart _ => True
  | _ => False

theorem run_map_failed {α : Type} {m : Option (Option α × Buf)}
    (h : (m.map fun (r, buf) => (r.isSome, buf)) = some (false, buf')) : m = some (none, buf') := by
  obtain ⟨⟨r, buf₁⟩, rfl, heq⟩ := Option.map_eq_some_iff.1 h
  obtain ⟨hr, rfl⟩ := Prod.mk.inj heq
  cases r with
  | none => rfl
  | some _ => cases hr

/-- Every call but `blob_nest_start` leaves the buffer as it was when it fails. -/
theorem run_failed {call : Call} (hcall : ¬ call.IsNestStart)
    (h : run alloc buf call = some (false, buf')) : buf' = buf := by
  cases call with
  | new id payload => exact blobNew_null (run_map_failed h)
  | put id payload => exact blobPut_null (run_map_failed h)
  | putRaw ptr => exact blobPutRaw_null (run_map_failed h)
  | nestStart id => exact absurd trivial hcall
  | addField type name data => exact blobmsgAddField_failed h
  | openNested name array => exact blobmsgOpenNested_null (run_map_failed h)
  | allocString name maxlen => exact blobmsgAllocStringBuffer_null (run_map_failed h)
  | reallocString maxlen => exact blobmsgReallocStringBuffer_null (run_map_failed h)
  | write off bytes =>
    simp only [run, Option.bind_eq_some_iff, Option.map_eq_some_iff, Prod.mk.injEq] at h
    obtain ⟨_, _, _, _, _, _, _, _, heq, _⟩ := h
    cases heq
  | addString =>
    obtain ⟨_, -, heq⟩ := Option.map_eq_some_iff.1 h
    cases (Prod.mk.inj heq).1
  | nestEnd cookie =>
    obtain ⟨_, -, heq⟩ := Option.map_eq_some_iff.1 h
    cases (Prod.mk.inj heq).1

/-- A `blob_nest_start` that fails leaves no head, where there was one. -/
theorem nestStart_failed {call : Call} (hcall : call.IsNestStart)
    (h : run alloc buf call = some (false, buf')) : buf.head ≠ none ∧ buf'.head = none := by
  cases call with
  | nestStart id =>
    have h := run_map_failed h
    rw [blobNestStart_null h]
    refine ⟨fun hnull => ?_, rfl⟩
    obtain ⟨offset, hoff, -⟩ := Option.bind_eq_some_iff.1 h
    rw [Buf.headOff, hnull] at hoff
    cases hoff
  | _ => exact hcall.elim

/-- Without a head, nothing can be appended or closed any more. -/
theorem run_null (hnull : buf.head = none) {call : Call} (hput : ∀ ptr, call ≠ .putRaw ptr) :
    run alloc buf call = none := by
  have hoff : buf.headOff = none := by
    rw [Buf.headOff, hnull]
    rfl
  have hnext : blobNextHead buf = none := by
    rw [blobNextHead, hoff]
    rfl
  have hnew : ∀ id payload, blobNew alloc buf id payload = none := by
    intro id payload
    rw [blobNew, hnext]
    rfl
  have hname : ∀ type name len, blobmsgNew alloc buf type name len = none := by
    intro type name len
    rw [blobmsgNew, hnew]
    rfl
  cases call with
  | putRaw ptr => exact absurd rfl (hput ptr)
  | new id payload =>
    rw [run, hnew]
    rfl
  | put id payload =>
    rw [run, blobPut, hnew]
    rfl
  | nestStart id =>
    rw [run, blobNestStart, hoff]
    rfl
  | addField type name data =>
    rw [run, blobmsgAddField, hname]
    rfl
  | openNested name array =>
    rw [run, blobmsgOpenNested, hoff]
    rfl
  | allocString name maxlen =>
    rw [run, blobmsgAllocStringBuffer, hname]
    rfl
  | reallocString maxlen =>
    rw [run, blobmsgReallocStringBuffer, hoff]
    rfl
  | write off bytes =>
    rw [run, hnext]
    rfl
  | addString =>
    rw [run, blobmsgAddStringBuffer, hnext]
    rfl
  | nestEnd cookie =>
    rw [run, blobNestEnd, hoff]
    split_ifs <;> rfl

end

/-- A run of calls, each with whether there is memory for it. -/
def runAll : List (Bool × Call) → Buf → Option Buf
  | [], buf => some buf
  | (alloc, call) :: calls, buf => (run alloc buf call).bind fun (_, buf) => runAll calls buf

/-- The calls of a run without those that fail. -/
def succeeding : List (Bool × Call) → Buf → List (Bool × Call)
  | [], _ => []
  | (alloc, call) :: calls, buf =>
    match run alloc buf call with
    | none => []
    | some (true, buf) => (alloc, call) :: succeeding calls buf
    | some (false, buf) => succeeding calls buf

/-- No call of a run that fails is `blob_nest_start`. -/
def NoNestFails : List (Bool × Call) → Buf → Prop
  | [], _ => True
  | (alloc, call) :: calls, buf => ∀ ok buf', run alloc buf call = some (ok, buf') →
      (ok = false → ¬ call.IsNestStart) ∧ NoNestFails calls buf'

/-- The calls that fail may be left out of a run. -/
theorem runAll_succeeding {calls : List (Bool × Call)} {buf buf' : Buf}
    (hfails : NoNestFails calls buf) (h : runAll calls buf = some buf') :
    runAll (succeeding calls buf) buf = some buf' := by
  induction calls generalizing buf with
  | nil => exact h
  | cons c calls ih =>
    obtain ⟨alloc, call⟩ := c
    obtain ⟨⟨ok, buf₁⟩, hrun, hrest⟩ := Option.bind_eq_some_iff.1 h
    obtain ⟨hnest, hfails⟩ := hfails ok buf₁ hrun
    have ih := ih hfails hrest
    cases ok with
    | true =>
      rw [succeeding, hrun]
      dsimp only
      rw [runAll, hrun]
      exact ih
    | false =>
      obtain rfl := run_failed (hnest rfl) hrun
      rw [succeeding, hrun]
      exact ih

/-- **Failed appends**: a call that fails leaves the head, its length and all that was written as
    they were exactly if it is not `blob_nest_start`, which leaves a buffer that nothing can be
    appended to or closed in; and the message of a run in which no `blob_nest_start` fails is that
    of the run without the calls that fail. -/
theorem failed_intact_iff (buf : Buf) :
    (∀ alloc call buf', run alloc buf call = some (false, buf') →
      (buf' = buf ↔ ¬ call.IsNestStart) ∧
      (call.IsNestStart → ∀ alloc next, (∀ ptr, next ≠ .putRaw ptr) → run alloc buf' next = none)) ∧
    ∀ calls buf', NoNestFails calls buf → runAll calls buf = some buf' →
      runAll (succeeding calls buf) buf = some buf' := by
  refine ⟨fun alloc call buf' h => ⟨⟨?_, fun hcall => run_failed hcall h⟩, ?_⟩,
    fun calls buf' => runAll_succeeding⟩
  · rintro rfl hcall
    obtain ⟨hhead, hnull⟩ := nestStart_failed hcall h
    exact hhead hnull
  · intro hcall alloc' next hput
    exact run_null (nestStart_failed hcall h).2 hput

/-- A message that fills its block of 256 bytes. -/
def fullMessage : Buf :=
  { mem := hdr 0 256 ++ (hdr 1 252 ++ List.replicate 248 0), gen := 1, head := some ⟨1, 0⟩ }

/-- There is no memory for a nest: the head is lost, and an attribute cannot be appended any more
    that could have been without the failed call. -/
theorem nest_start_loses_head :
    ((blobBufInit true ⟨[], 0, none⟩ 0).bind fun (_, buf) => run true buf (.put 1 (.room 248))) =
      some (true, fullMessage) ∧
    run false fullMessage (.nestStart 2) = some (false, { fullMessage with head := none }) ∧
    run true { fullMessage with head := none } (.new 3 0) = none ∧
    (run true fullMessage (.new 3 0)).isSome = true := by
  decide +kernel

end Blobmsg.Machine
