/-
  The requests in a byte stream, and reads that deliver less than a header or a payload.
-/
import IotLib.Xmldb.Request

namespace Xmldb.Rgdb

/-! ## Streams of requests -/

/-- A header and a payload of the length that the header gives. -/
structure Message where
  header : Bytes
  payload : Bytes
  size : header.length = IPC_SIZE
  length : Rgdb.length header = payload.length

def stream (ms : List Message) : Bytes := ms.flatMap fun m => m.header ++ m.payload

/-- The reads that deliver a header and a payload whole; there is none for the payload where the
    header says that there is no request. -/
def Message.reads (m : Message) : List ℕ+ :=
  if action m.header = RGDB_NONE then [16] else [16, m.payload.length.toPNat']

/-- Every header and every payload is delivered whole, and then the end of the stream. -/
def whole (ms : List Message) : List ℕ+ := ms.flatMap Message.reads ++ [1]

section
variable (env : Env)

/-- The requests are executed as from whole deliveries, and no handler looks beyond its payload. -/
def Framed (old : Bytes) (tree : XmlNode) (ms : List Message) (sizes : List ℕ+) : Prop :=
  let r := Run.run (rhandler env) (accepted old tree (stream ms)) sizes
  r.log = (Run.run (rhandler env) (accepted old tree (stream ms)) (whole ms)).log ∧ r.beyond = false

/-- Each `read` delivers all that it asks for, as far as the client has sent it. -/
def Full (c : Client) (sizes : List ℕ+) : Prop :=
  Run.Admits (rhandler env) (fun c size => c.isOpen = true → min c.wanted c.rest.length ≤ size) c sizes

/-- The payloads of the requests that are served end, up to the one that closes the connection. -/
def Ends : XmlNode → List Message → Prop
  | _, [] => True
  | tree, m :: ms =>
    if action m.header = RGDB_NONE then Ends tree ms
    else if isString (action m.header) = true ∧ m.payload ≠ [] then
      Terminated env tree (action m.header) m.payload ∧
        ∀ done, handle env tree (flags m.header) m.payload (action m.header) = some done → Ends done.tree ms
    else if action m.header = RGDB_PATCH_BUFF ∧ m.payload ≠ [] ∧ m.payload.length < MAX_PATCH_BUFFER then
      Ends tree ms
    else True

end

/-! ## Whole reads -/

section
variable {env : Env} {c : Client} {m : Message} {ms : List Message}

/-- A client that is about to read the header of the first of these requests. -/
structure Aligned (c : Client) (ms : List Message) : Prop where
  isOpen : c.isOpen = true
  action : action c.ipc = RGDB_NONE
  size : c.ipc.length = IPC_SIZE
  rest : c.rest = stream ms

theorem Aligned.wanted (h : Aligned c ms) : c.wanted = IPC_SIZE := if_pos h.action

/-- A header is read. -/
theorem Aligned.header (h : Aligned c (m :: ms)) :
    rhandler env c 16 = { c with ipc := m.header, rest := m.payload ++ stream ms } := by
  have hrest : c.rest = m.header ++ (m.payload ++ stream ms) := by
    rw [h.rest, stream, List.flatMap_cons, List.append_assoc]
    rfl
  have hlen : m.header.length = min c.wanted (16 : ℕ+) := by
    rw [h.wanted, m.size]
    rfl
  have hne : m.header ≠ [] := by
    intro hnil
    have hsize := m.size
    rw [hnil] at hsize
    cases hsize
  unfold rhandler
  rw [h.isOpen, if_neg (by simp), if_pos h.action]
  dsimp only
  rw [← hlen, hrest, List.take_left, List.drop_left, if_neg hne, List.drop_eq_nil_of_le, List.append_nil]
  rw [h.size, m.size]

/-- A client that has read the header of `m`, with these requests after it. -/
structure Headed (c : Client) (m : Message) (ms : List Message) : Prop where
  isOpen : c.isOpen = true
  ipc : c.ipc = m.header
  rest : c.rest = m.payload ++ stream ms

/-- A request without a payload that says that there is no request. -/
theorem Headed.none (h : Headed c m ms) (hact : action m.header = RGDB_NONE) (hnil : m.payload = []) :
    Aligned c ms := by
  refine ⟨h.isOpen, ?_, ?_, ?_⟩
  · rw [h.ipc]
    exact hact
  · rw [h.ipc]
    exact m.size
  · rw [h.rest, hnil]
    rfl

theorem clearAction_action (ipc : Bytes) : action (clearAction ipc) = RGDB_NONE := rfl

theorem answer_action (ipc : Bytes) (retcode : ℤ) : action (answer ipc retcode) = RGDB_NONE := rfl

theorem clearAction_size {ipc : Bytes} (h : ipc.length = IPC_SIZE) :
    (clearAction ipc).length = IPC_SIZE := by
  unfold IPC_SIZE at h ⊢
  simp only [clearAction, List.length_append, List.length_cons, List.length_nil, List.length_drop]
  omega

theorem answer_size {ipc : Bytes} (h : ipc.length = IPC_SIZE) (retcode : ℤ) :
    (answer ipc retcode).length = IPC_SIZE := by
  unfold IPC_SIZE at h ⊢
  simp only [answer, leInt, List.length_append, List.length_cons, List.length_nil, List.length_take,
    List.length_drop, List.length_map, List.length_range]
  omega

/-- A handler that has stayed within the payload. -/
theorem Headed.finish {c' : Client} (h : Headed c m ms) (hc : c' = { c with rest := stream ms })
    (done : Done) :
    Aligned (c'.finish (some done)) ms ∧ (c'.finish (some done)).tree = done.tree ∧
      (c'.finish (some done)).beyond = c.beyond := by
  subst hc
  refine ⟨⟨h.isOpen, ?_, ?_, rfl⟩, rfl, rfl⟩
  · simp only [Client.finish]
    split_ifs
    · exact answer_action _ _
    · exact clearAction_action _
  · have hsize : c.ipc.length = IPC_SIZE := by
      rw [h.ipc]
      exact m.size
    simp only [Client.finish]
    split_ifs
    · exact answer_size hsize _
    · exact clearAction_size hsize

/-- The `read` for a payload. -/
theorem Headed.wanted (h : Headed c m ms) (hact : action m.header ≠ RGDB_NONE) :
    c.wanted = m.payload.length := by
  rw [Client.wanted, h.ipc, if_neg hact, m.length]

/-- What the `read` for a payload leads to. -/
theorem Headed.payload (env : Env) (h : Headed c m ms) (hact : action m.header ≠ RGDB_NONE) {size : ℕ+}
    (hsize : m.payload.length ≤ size) :
    (∃ done, rhandler env c size = Client.finish { c with rest := stream ms } (some done) ∧
      (Ends env c.tree (m :: ms) ↔ Ends env done.tree ms)) ∨
    ((rhandler env c size).isOpen = false ∧ (rhandler env c size).beyond = c.beyond ∧
      Ends env c.tree (m :: ms)) ∨
    ((rhandler env c size).isOpen = false ∧ (rhandler env c size).beyond = true ∧
      ¬Ends env c.tree (m :: ms)) := by
  have hmin : min c.wanted (size : ℕ) = m.payload.length := by
    rw [h.wanted hact]
    exact min_eq_left hsize
  rw [rhandler, Ends, h.isOpen, if_neg (by simp), hmin, h.rest, List.take_left, List.drop_left, h.ipc,
    if_neg hact, if_neg hact]
  dsimp only
  by_cases hstring : isString (action m.header)
  · rw [if_pos hstring]
    by_cases hnil : m.payload = []
    · rw [if_pos hnil, if_neg fun hs => hs.2 hnil, if_neg fun hs => hs.2.1 hnil]
      exact .inr (.inl ⟨rfl, rfl, trivial⟩)
    · rw [if_neg hnil, if_pos ⟨hstring, hnil⟩, ← @handle_isSome env c.tree (flags m.header) m.payload _ hstring]
      cases hdone : handle env c.tree (flags m.header) m.payload (action m.header) with
      | none => exact .inr (.inr ⟨rfl, rfl, fun h => Bool.noConfusion h.1⟩)
      | some done =>
        refine .inl ⟨done, rfl, ?_, fun h => ⟨rfl, ?_⟩⟩
        · intro h
          exact h.2 done rfl
        · rintro _ ⟨⟩
          exact h
  · have hno : ¬(isString (action m.header) = true ∧ m.payload ≠ []) := fun hs => hstring hs.1
    rw [if_neg hstring, if_neg hno, m.length]
    by_cases hbuff : action m.header = RGDB_PATCH_BUFF
    · rw [if_pos hbuff]
      by_cases hlen : m.payload.length < MAX_PATCH_BUFFER
      · rw [if_pos hlen]
        by_cases hnil : m.payload = []
        · rw [if_pos hnil, if_neg fun hs => hs.2.1 hnil]
          exact .inr (.inl ⟨rfl, rfl, trivial⟩)
        · rw [if_neg hnil, if_pos ⟨hbuff, hnil, hlen⟩]
          exact .inl ⟨_, rfl, Iff.rfl⟩
      · rw [if_neg hlen, if_neg fun hs => hlen hs.2.2]
        exact .inr (.inl ⟨rfl, rfl, trivial⟩)
    · rw [if_neg hbuff, if_neg fun hs : _ ∧ _ => hbuff hs.1]
      exact .inr (.inl ⟨rfl, rfl, trivial⟩)

/-- The end of the stream. -/
theorem Aligned.finish (env : Env) (h : Aligned c []) (size : ℕ+) :
    (rhandler env c size).isOpen = false ∧ (rhandler env c size).beyond = c.beyond := by
  have hrest : c.rest = [] := h.rest
  rw [rhandler, h.isOpen, if_neg (by simp), if_pos h.action, hrest, List.take_nil, if_pos rfl]
  exact ⟨rfl, rfl⟩

end

end Xmldb.Rgdb
