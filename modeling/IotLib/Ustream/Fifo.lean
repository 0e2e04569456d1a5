/-
  A stream is a queue of bytes in each direction.

  A list of buffers holds its bytes in front of `data_tail` and in it; behind it there are buffers
  without any. Every operation on a list is stated by what it does to the queue.
-/
import IotLib.Lib.Linked
import IotLib.Ustream.Stream

namespace Ustream

/-! ## Chains of buffers -/

/-- A buffer within its block, which has `pad` bytes behind the end. -/
structure Buf.Ok (pad : ℕ) (buf : Buf) : Prop where
  pos : 0 < buf.size
  mem : buf.mem.length = buf.size + pad
  data : buf.data ≤ buf.tail
  tail : buf.tail ≤ buf.size

def Buf.Blank (buf : Buf) : Prop := buf.data = 0 ∧ buf.tail = 0

/-- A buffer with its address. -/
abbrev Item := ℕ × Buf

def addrs (items : List Item) : List ℕ := items.map Prod.fst

def bytes (items : List Item) : Bytes := items.flatMap fun i => i.2.content

/-- The list consists of these buffers, from `head` to `tail`. -/
structure Chain (pad : ℕ) (l : BufList) (items : List Item) : Prop where
  bodies : ∀ i ∈ items, l.bufs i.1 = some i.2
  ok : ∀ i ∈ items, i.2.Ok pad
  fresh : ∀ i ∈ items, i.1 < l.fresh
  nodup : (addrs items).Nodup
  linked : Linked l.next (addrs items)
  head : l.head = (addrs items).head?
  tail : l.tail = (addrs items).getLast?
  buffers : l.buffers = items.length
  bufferLen : 0 < l.bufferLen

section
variable {pad a : ℕ} {l l' : BufList} {buf buf' : Buf} {items pre post : List Item} {i : Item}

theorem mem_addrs (h : i ∈ items) : i.1 ∈ addrs items := List.mem_map_of_mem h

theorem addrs_append : addrs (pre ++ post) = addrs pre ++ addrs post := List.map_append

theorem bytes_append : bytes (pre ++ post) = bytes pre ++ bytes post := List.flatMap_append

theorem content_blank (h : buf.Blank) : buf.content = [] := by
  rw [Buf.content, h.2, Nat.zero_sub, List.take_zero]

theorem bytes_blank (h : ∀ i ∈ items, i.2.Blank) : bytes items = [] :=
  List.flatMap_eq_nil_iff.2 fun i hi => content_blank (h i hi)

theorem ne_of_mem (ha : a ∉ addrs items) (hi : i ∈ items) : i.1 ≠ a := by
  rintro rfl
  exact ha (mem_addrs hi)

/-- Other blocks do not matter. -/
theorem Chain.update_other (h : Chain pad l items) (ha : a ∉ addrs items) (v : Option Buf) :
    Chain pad { l with bufs := Function.update l.bufs a v } items :=
  { h with
    bodies := fun i hi => (Function.update_of_ne (ne_of_mem ha hi) _ _).trans (h.bodies i hi) }

/-- Another state of one of the buffers. -/
theorem Chain.setBuf (h : Chain pad l (pre ++ (a, buf) :: post)) (hok : buf'.Ok pad) :
    Chain pad (l.setBuf a buf') (pre ++ (a, buf') :: post) := by
  have haddrs : addrs (pre ++ (a, buf') :: post) = addrs (pre ++ (a, buf) :: post) := by
    simp [addrs]
  have hmem : ∀ i ∈ pre ++ (a, buf') :: post,
      i = (a, buf') ∨ i.1 ≠ a ∧ i ∈ pre ++ (a, buf) :: post := by
    have hnodup := h.nodup
    rw [addrs_append, addrs, addrs, List.map_cons, List.nodup_middle, List.nodup_cons,
      List.mem_append, not_or] at hnodup
    intro i hi
    rw [List.mem_append, List.mem_cons] at hi
    rcases hi with hi | rfl | hi
    · exact .inr ⟨ne_of_mem hnodup.1.1 hi, by simp [hi]⟩
    · exact .inl rfl
    · exact .inr ⟨ne_of_mem hnodup.1.2 hi, by simp [hi]⟩
  have ha : (a, buf) ∈ pre ++ (a, buf) :: post := by simp
  constructor
  · intro i hi
    rcases hmem i hi with rfl | ⟨hne, hi⟩
    · exact Function.update_self _ _ _
    · exact (Function.update_of_ne hne _ _).trans (h.bodies i hi)
  · intro i hi
    rcases hmem i hi with rfl | ⟨-, hi⟩
    · exact hok
    · exact h.ok i hi
  · intro i hi
    rcases hmem i hi with rfl | ⟨-, hi⟩
    · exact h.fresh (a, buf) ha
    · exact h.fresh i hi
  · rw [haddrs]
    exact h.nodup
  · rw [haddrs]
    exact h.linked
  · rw [haddrs]
    exact h.head
  · rw [haddrs]
    exact h.tail
  · have hlen := h.buffers
    simp only [List.length_append, List.length_cons] at hlen ⊢
    exact hlen
  · exact h.bufferLen

/-- `ustream_add_buf`, field by field. -/
theorem ustreamAddBuf_eq (l : BufList) (a : ℕ) :
    ustreamAddBuf l a =
      { l with
        head := l.tail.elim (some a) fun _ => l.head
        next := Function.update (l.tail.elim l.next fun t => Function.update l.next t (some a)) a none
        tail := some a
        dataTail := l.dataTail.or (l.tail.elim (some a) fun _ => l.head)
        buffers := l.buffers + 1 } := by
  unfold ustreamAddBuf
  cases htail : l.tail with
  | none =>
    cases hdata : l.dataTail with
    | none => simp
    | some d => simp
  | some t =>
    cases hdata : l.dataTail with
    | none => simp
    | some d => simp

/-- `ustream_add_buf` puts a buffer at the end. -/
theorem Chain.add (h : Chain pad l items) (hbuf : l.bufs a = some buf) (hok : buf.Ok pad)
    (hfresh : a < l.fresh) (ha : a ∉ addrs items) :
    Chain pad (ustreamAddBuf l a) (items ++ [(a, buf)]) := by
  rw [ustreamAddBuf_eq]
  have hmem : ∀ i ∈ items ++ [(a, buf)], i ∈ items ∨ i = (a, buf) := by simp
  have hnodup : (addrs (items ++ [(a, buf)])).Nodup := by
    rw [addrs_append, List.nodup_append]
    refine ⟨h.nodup, List.nodup_singleton a, ?_⟩
    rintro b hb _ (- | ⟨-, ⟨⟩⟩) rfl
    exact ha hb
  constructor
  · intro i hi
    rcases hmem i hi with hi | rfl
    · exact h.bodies i hi
    · exact hbuf
  · intro i hi
    rcases hmem i hi with hi | rfl
    · exact h.ok i hi
    · exact hok
  · intro i hi
    rcases hmem i hi with hi | rfl
    · exact h.fresh i hi
    · exact hfresh
  · exact hnodup
  · rcases List.eq_nil_or_concat' items with rfl | ⟨xs, x, rfl⟩
    · exact ⟨Function.update_self _ _ _, trivial⟩
    · have htail : l.tail = some x.1 := by
        rw [h.tail, addrs_append]
        exact List.getLast?_concat
      have hx : x.1 ∈ addrs (xs ++ [x]) := mem_addrs (by simp)
      have hne : ∀ {b}, b ∈ addrs (xs ++ [x]) → b ≠ a := by
        rintro b hb rfl
        exact ha hb
      have hlinked := h.linked
      have hlast := h.nodup
      rw [addrs_append, addrs, addrs, List.map_singleton] at hlinked
      rw [addrs_append, List.nodup_append] at hlast
      rw [htail, List.append_assoc, addrs_append]
      refine Linked.concat hlinked ?_ ?_ (Function.update_self _ _ _)
      · intro b hb
        have hbx : b ≠ x.1 := hlast.2.2 b hb x.1 (by simp [addrs])
        have hb' : b ∈ addrs (xs ++ [x]) := by
          rw [addrs_append]
          exact List.mem_append_left _ hb
        exact (Function.update_of_ne (hne hb') _ _).trans (Function.update_of_ne hbx _ _)
      · exact (Function.update_of_ne (hne hx) _ _).trans (Function.update_self _ _ _)
  · rw [addrs_append, List.head?_append, ← h.head]
    cases items with
    | nil =>
      have hhead : l.head = none := h.head
      have htail : l.tail = none := h.tail
      rw [hhead, htail]
      rfl
    | cons i items =>
      have hhead : l.head = some i.1 := h.head
      cases htail : l.tail with
      | none =>
        rw [h.tail, List.getLast?_eq_none_iff] at htail
        cases htail
      | some t =>
        rw [hhead]
        rfl
  · rw [addrs_append, addrs, addrs, List.map_singleton, List.getLast?_concat]
  · have hlen := h.buffers
    simp only [List.length_append, List.length_singleton, Nat.cast_add, Nat.cast_one, hlen]
  · exact h.bufferLen

/-- The first steps of `ustream_free_buf`: the buffer is taken out of the list. -/
def unlink (l : BufList) (a : ℕ) : BufList :=
  { l with
    head := if some a = l.head then l.next a else l.head
    dataTail := if some a = l.dataTail then l.next a else l.dataTail
    tail := if some a = l.tail then none else l.tail
    buffers := l.buffers - 1 }

/-- `ustream_free_buf`: the buffer is freed or used again. -/
theorem ustreamFreeBuf_eq (hbuf : l.bufs a = some buf) :
    ustreamFreeBuf l a =
      if (unlink l a).minBuffers ≤ (unlink l a).buffers then
        some { unlink l a with bufs := Function.update l.bufs a none }
      else
        (ustreamInitBuf buf.mem buf.size).bind fun buf =>
          some (ustreamAddBuf ((unlink l a).setBuf a buf) a) := by
  unfold ustreamFreeBuf unlink
  rw [hbuf]
  simp only [Option.bind_some]
  split_ifs <;> rfl

/-- The list without its first buffer. -/
theorem Chain.unlink (h : Chain pad l (i :: items)) : Chain pad (unlink l i.1) items := by
  have hhead : l.head = some i.1 := h.head
  have hnext : l.next i.1 = (addrs items).head? := h.linked.1
  constructor
  · exact fun j hj => h.bodies j (List.mem_cons_of_mem i hj)
  · exact fun j hj => h.ok j (List.mem_cons_of_mem i hj)
  · exact fun j hj => h.fresh j (List.mem_cons_of_mem i hj)
  · exact (List.nodup_cons.1 h.nodup).2
  · exact h.linked.2
  · rw [Ustream.unlink, hhead, if_pos rfl, hnext]
  · rw [Ustream.unlink, h.tail]
    cases items with
    | nil => exact if_pos rfl
    | cons j items =>
      have hlast : (addrs (i :: j :: items)).getLast? = (addrs (j :: items)).getLast? :=
        List.getLast?_cons_cons
      refine (if_neg fun heq => (List.nodup_cons.1 h.nodup).1 ?_).trans hlast
      exact List.mem_of_getLast? (hlast.symm.trans heq.symm)
  · have hlen := h.buffers
    rw [List.length_cons] at hlen
    change l.buffers - 1 = _
    omega
  · exact h.bufferLen

theorem ustreamInitBuf_eq {mem : Bytes} {n : ℕ} (hn : 0 < n) (hmem : mem.length = n + pad) :
    ∃ buf, ustreamInitBuf mem n = some buf ∧ buf.Ok pad ∧ buf.Blank := by
  obtain ⟨mem', hwrite, hlen⟩ := @Block.exists_write _ mem [0] 0 (by simp; omega)
  refine ⟨⟨mem', 0, 0, n⟩, ?_, ⟨hn, hlen.trans hmem, le_rfl, Nat.zero_le n⟩, rfl, rfl⟩
  rw [ustreamInitBuf, if_neg hn.ne', hwrite]
  rfl

/-- `ustream_free_buf` on the first buffer: it is gone, or stands at the end without bytes. -/
theorem Chain.free (h : Chain pad l (i :: items))
    (hdata : (Ustream.unlink l i.1).dataTail = none → items = []) :
    ∃ l' again, ustreamFreeBuf l i.1 = some l' ∧ Chain pad l' (items ++ again) ∧
      (∀ j ∈ again, j.2.Blank) ∧ l'.dataBytes = l.dataBytes ∧
      l'.dataTail = (Ustream.unlink l i.1).dataTail.or (addrs again).head? := by
  have hbuf := h.bodies i List.mem_cons_self
  have hok := h.ok i List.mem_cons_self
  have hnot : i.1 ∉ addrs items := (List.nodup_cons.1 h.nodup).1
  have hrest := h.unlink
  rw [ustreamFreeBuf_eq hbuf]
  split_ifs
  · refine ⟨_, [], rfl, ?_, nofun, rfl, ?_⟩
    · rw [List.append_nil]
      exact hrest.update_other hnot none
    · exact Option.or_none.symm
  · obtain ⟨buf, hinit, hbufOk, hblank⟩ := ustreamInitBuf_eq hok.pos hok.mem
    rw [hinit, Option.bind_some]
    refine ⟨_, [(i.1, buf)], rfl, ?_, ?_, ?_, ?_⟩
    · exact (hrest.update_other hnot (some buf)).add (Function.update_self _ _ _) hbufOk
        (h.fresh i List.mem_cons_self) hnot
    · rintro j (- | ⟨-, ⟨⟩⟩)
      exact hblank
    · rw [ustreamAddBuf_eq]
      rfl
    · rw [ustreamAddBuf_eq]
      cases hnone : (Ustream.unlink l i.1).dataTail with
      | none =>
        obtain rfl := hdata hnone
        have htail : (Ustream.unlink l i.1).tail = none := hrest.tail
        simp [BufList.setBuf, htail, hnone, addrs]
      | some d => simp [BufList.setBuf, hnone]

/-- A new buffer at the end. -/
theorem Chain.alloc (h : Chain pad l items) {strings : Bool} (malloc : Bool)
    (hpad : pad = strings.toNat) :
    ustreamAllocDefault strings malloc l = some (false, l) ∨
    ∃ l' i, ustreamAllocDefault strings malloc l = some (true, l') ∧ Chain pad l' (items ++ [i]) ∧
      i.2.Blank ∧ l'.dataBytes = l.dataBytes ∧ l'.tail = some i.1 := by
  unfold ustreamAllocDefault
  by_cases hcan : ¬ustreamCanAlloc l
  · exact .inl (if_pos hcan)
  · rw [if_neg hcan]
    by_cases hmalloc : ¬malloc
    · exact .inl (if_pos hmalloc)
    rw [if_neg hmalloc]
    obtain ⟨buf, hinit, hok, hblank⟩ :=
      @ustreamInitBuf_eq pad (List.replicate (l.bufferLen + strings.toNat) 0) _ h.bufferLen (by simp [hpad])
    rw [hinit, Option.bind_some]
    have hnot : l.fresh ∉ addrs items := by
      intro hmem
      obtain ⟨i, hi, heq⟩ := List.mem_map.1 hmem
      exact (h.fresh i hi).ne heq
    have hnew : Chain pad { l.setBuf l.fresh buf with fresh := l.fresh + 1 } items :=
      { h.update_other hnot (some buf) with fresh := fun i hi => (h.fresh i hi).trans (Nat.lt_succ_self _) }
    refine .inr ⟨_, (l.fresh, buf), rfl, ?_, hblank, ?_, ?_⟩
    · exact hnew.add (Function.update_self _ _ _) hok (Nat.lt_succ_self _) hnot
    · rw [ustreamAddBuf_eq]
      rfl
    · rw [ustreamAddBuf_eq]

/-! ## One buffer -/

theorem Buf.Ok.read (h : buf.Ok pad) :
    Block.read buf.mem buf.data (buf.tail - buf.data) = some buf.content := by
  have hmem := h.mem
  have hdata := h.data
  have htail := h.tail
  exact if_pos (by omega)

theorem Buf.Ok.content_length (h : buf.Ok pad) : buf.content.length = buf.tail - buf.data :=
  Block.read_length h.read

/-- Bytes are put behind the data; `n` of them count. -/
theorem Buf.Ok.put (h : buf.Ok pad) {bs : Bytes} {n : ℕ} (hbs : bs.length ≤ buf.size - buf.tail)
    (hn : n ≤ bs.length) :
    ∃ mem, Block.write buf.mem buf.tail bs = some mem ∧
      Buf.Ok pad { buf with mem := mem, tail := buf.tail + n } ∧
      Buf.content { buf with mem := mem, tail := buf.tail + n } = buf.content ++ bs.take n := by
  obtain ⟨hpos, hmem, hdata, htail⟩ := h
  obtain ⟨mem, hwrite, hlen⟩ := @Block.exists_write _ buf.mem bs buf.tail (by omega)
  refine ⟨mem, hwrite, ⟨hpos, hlen.trans hmem, ?_, ?_⟩, ?_⟩
  · exact hdata.trans (Nat.le_add_right _ _)
  · change buf.tail + n ≤ buf.size
    omega
  · have hread : Block.read buf.mem buf.data (buf.tail - buf.data) = some buf.content :=
      Buf.Ok.read ⟨hpos, hmem, hdata, htail⟩
    have hcontent := Block.read_length hread
    have hwrite' : Block.write buf.mem (buf.data + (buf.tail - buf.data)) bs = some mem := by
      rw [Nat.add_sub_cancel' hdata]
      exact hwrite
    have happend := Block.read_write_append hread hwrite'
    have htake := Block.read_take happend (k := buf.tail - buf.data + n) (by omega)
    rw [List.take_append, hcontent, List.take_of_length_le (by omega), Nat.add_sub_cancel_left] at htake
    have hout : Block.read mem buf.data (buf.tail - buf.data + n) =
        some ((mem.drop buf.data).take (buf.tail - buf.data + n)) := by
      refine if_pos ?_
      omega
    rw [hout] at htake
    rw [← Option.some.inj htake, Buf.content, Nat.sub_add_comm hdata]

/-- `ustream_fixup_string` changes no byte of the data. -/
theorem Buf.Ok.fixup (h : buf.Ok pad) {strings : Bool} (hpad : strings = true → pad = 1) :
    ∃ buf', ustreamFixupString strings buf = some buf' ∧ buf'.Ok pad ∧ buf'.content = buf.content ∧
      buf'.data = buf.data ∧ buf'.tail = buf.tail ∧ buf'.size = buf.size := by
  unfold ustreamFixupString
  cases strings with
  | false => exact ⟨buf, rfl, h, rfl, rfl, rfl, rfl⟩
  | true =>
    have hpad' := hpad rfl
    obtain ⟨hpos, hmem, hdata, htail⟩ := h
    obtain ⟨mem, hwrite, hlen⟩ :=
      @Block.exists_write _ buf.mem [0] buf.tail (by rw [List.length_singleton]; omega)
    rw [if_neg (by simp), hwrite]
    refine ⟨_, rfl, ⟨hpos, hlen.trans hmem, hdata, htail⟩, ?_, rfl, rfl, rfl⟩
    have hread := Block.read_write_before (Buf.Ok.read ⟨hpos, hmem, hdata, htail⟩) (by omega) hwrite
    have hout : Block.read mem buf.data (buf.tail - buf.data) =
        some ((mem.drop buf.data).take (buf.tail - buf.data)) := if_pos (by omega)
    rw [hout] at hread
    exact Option.some.inj hread

/-- Squeezing moves the data to the front. -/
theorem Buf.Ok.squeezed (h : buf.Ok pad) (read : Bool) {strings : Bool}
    (hpad : strings = true → pad = 1) :
    ∃ buf', squeeze read strings buf = some buf' ∧ buf'.Ok pad ∧ buf'.content = buf.content ∧
      buf'.data = 0 ∧ buf'.tail = buf.tail - buf.data ∧ buf'.size = buf.size := by
  have hread := h.read
  have hcontent := h.content_length
  obtain ⟨hpos, hmem, hdata, htail⟩ := h
  obtain ⟨mem, hwrite, hlen⟩ :=
    @Block.exists_write _ buf.mem buf.content 0 (by omega)
  have hmoved : Buf.Ok pad { buf with mem := mem, data := 0, tail := buf.tail - buf.data } :=
    ⟨hpos, hlen.trans hmem, Nat.zero_le _, (Nat.sub_le _ _).trans htail⟩
  have hsame : Buf.content { buf with mem := mem, data := 0, tail := buf.tail - buf.data } =
      buf.content := by
    have hself := Block.read_write_self hwrite
    rw [hcontent] at hself
    exact Option.some.inj (hmoved.read.symm.trans hself)
  unfold squeeze
  rw [hread, Option.bind_some, hwrite, Option.bind_some]
  obtain ⟨buf', hfix, hok', hcontent', hdata', htail', hsize'⟩ := @Buf.Ok.fixup _ _ hmoved (read && strings)
    (fun hs => hpad (Bool.and_eq_true_iff.1 hs).2)
  exact ⟨buf', hfix, hok', hcontent'.trans hsame, hdata', htail', hsize'⟩

end

/-! ## Queues -/

/-- A list with the buffers in front of `data_tail`, and with `data_tail` and those behind it. -/
structure Rep (pad : ℕ) (l : BufList) (pre rest : List Item) : Prop where
  chain : Chain pad l (pre ++ rest)
  dataTail : l.dataTail = (addrs rest).head?
  full : ∀ i ∈ pre, i.2.data < i.2.tail
  first : ∀ i ∈ rest.head?, i.2.Blank ∨ i.2.data < i.2.tail
  blank : ∀ i ∈ rest.tail, i.2.Blank
  empty : rest = [] → pre = []

/-- The list holds the bytes `q`. -/
def Holds (pad : ℕ) (l : BufList) (q : Bytes) : Prop :=
  ∃ pre rest, Rep pad l pre rest ∧ bytes (pre ++ rest) = q

section
variable {pad a n : ℕ} {l l' : BufList} {buf buf' : Buf} {pre rest items : List Item} {i : Item}
  {q bs : Bytes} {strings : Bool}

/-- Another state of `data_tail`. -/
theorem Rep.setFirst (h : Rep pad l pre ((a, buf) :: rest)) (hok : buf'.Ok pad)
    (hfirst : buf'.Blank ∨ buf'.data < buf'.tail) :
    Rep pad (l.setBuf a buf') pre ((a, buf') :: rest) := by
  refine ⟨h.chain.setBuf hok, h.dataTail, h.full, ?_, h.blank, nofun⟩
  rintro _ ⟨⟩
  exact hfirst

/-- The buffer `data_tail`. -/
theorem Rep.body (h : Rep pad l pre ((a, buf) :: rest)) :
    l.dataTail = some a ∧ l.bufs a = some buf ∧ buf.Ok pad ∧ (buf.Blank ∨ buf.data < buf.tail) := by
  have hmem : (a, buf) ∈ pre ++ (a, buf) :: rest := by simp
  exact ⟨h.dataTail, h.chain.bodies _ hmem, h.chain.ok _ hmem, h.first _ rfl⟩

theorem Rep.bytes_eq (h : Rep pad l pre ((a, buf) :: rest)) :
    bytes (pre ++ (a, buf) :: rest) = bytes pre ++ buf.content := by
  rw [bytes_append, bytes, bytes, List.flatMap_cons]
  have hrest : bytes rest = [] := bytes_blank h.blank
  rw [bytes] at hrest
  rw [hrest, List.append_nil]

/-- The counter is not a part of the queue. -/
theorem Holds.dataBytes (h : Holds pad l q) (m : ℤ) : Holds pad { l with dataBytes := m } q := by
  obtain ⟨pre, rest, ⟨hchain, hdata, hfull, hfirst, hblank, hempty⟩, hq⟩ := h
  exact ⟨pre, rest, ⟨{ hchain with }, hdata, hfull, hfirst, hblank, hempty⟩, hq⟩

/-- A new buffer behind full ones. -/
theorem addData_spec (malloc : Bool) (h : Chain pad l items)
    (hfull : ∀ i ∈ items, i.2.data < i.2.tail) (hpad : pad = strings.toNat) :
    addData strings malloc l = some (false, l) ∨
    ∃ l' i, addData strings malloc l = some (true, l') ∧ Rep pad l' items [i] ∧ i.2.Blank ∧
      l'.dataBytes = l.dataBytes := by
  unfold addData
  by_cases hcan : ¬ustreamCanAlloc l
  · exact .inl (if_pos hcan)
  · rw [if_neg hcan]
    rcases h.alloc malloc hpad with halloc | ⟨l', i, halloc, hchain, hblank, hbytes, htail⟩
    · rw [halloc]
      exact .inl rfl
    · rw [halloc]
      refine .inr ⟨{ l' with dataTail := l'.tail }, i, rfl, ?_, hblank, hbytes⟩
      refine ⟨{ hchain with }, htail, hfull, ?_, nofun, nofun⟩
      rintro _ ⟨⟩
      exact .inl hblank

/-- There is room at `data_tail`. -/
theorem Rep.room (h : Rep pad l pre ((a, buf) :: rest)) : l.room = some (buf.size - buf.tail) := by
  obtain ⟨hdata, hbuf, -⟩ := h.body
  rw [BufList.room, hdata, Option.bind_some, hbuf, Option.bind_some]

theorem Rep.room_blank (h : Rep pad l pre (i :: rest)) (hblank : i.2.Blank) :
    ∃ room, l.room = some room ∧ 0 < room := by
  refine ⟨_, h.room, ?_⟩
  rw [hblank.2, Nat.sub_zero]
  exact h.body.2.2.1.pos

/-- The squeezing keeps what the list needs of `data_tail`. -/
theorem Buf.Ok.moved (h : buf.Ok pad) (hfirst : buf.Blank ∨ buf.data < buf.tail) (read move : Bool)
    (hpad : strings = true → pad = 1) :
    ∃ buf', (if move then squeeze read strings buf else some buf) = some buf' ∧ buf'.Ok pad ∧
      buf'.content = buf.content ∧ (buf'.Blank ∨ buf'.data < buf'.tail) := by
  cases move with
  | false => exact ⟨buf, rfl, h, rfl, hfirst⟩
  | true =>
    obtain ⟨buf', hsq, hok, hcontent, hdata, htail, -⟩ := h.squeezed read hpad
    refine ⟨buf', hsq, hok, hcontent, ?_⟩
    rcases hfirst with ⟨h0, h1⟩ | hlt
    · refine .inl ⟨hdata, ?_⟩
      rw [htail, h1, Nat.zero_sub]
    · refine .inr ?_
      rw [hdata, htail]
      exact Nat.sub_pos_of_lt hlt

/-- **`ustream_prepare_buf`** changes no byte, and finds room. -/
theorem Holds.prepare (h : Holds pad l q) (read malloc : Bool) (len : ℕ) (hpad : pad = strings.toNat) :
    ∃ ok l', ustreamPrepareBuf read strings malloc l len = some (ok, l') ∧ Holds pad l' q ∧
      l'.dataBytes = l.dataBytes ∧ (ok = true → ∃ room, l'.room = some room ∧ 0 < room) := by
  obtain ⟨pre, rest, hrep, rfl⟩ := h
  have hstrings : strings = true → pad = 1 := by
    rintro rfl
    exact hpad
  unfold ustreamPrepareBuf
  cases rest with
  | nil =>
    obtain rfl := hrep.empty rfl
    have hdata : l.dataTail = none := hrep.dataTail
    rw [hdata]
    rcases addData_spec malloc hrep.chain (by simp) hpad with
      hadd | ⟨l', i, hadd, hrep', hblank, hbytes⟩
    · exact ⟨false, l, hadd, ⟨[], [], hrep, rfl⟩, rfl, by simp⟩
    · refine ⟨true, l', hadd, ⟨[], [i], hrep', ?_⟩, hbytes, fun _ => hrep'.room_blank hblank⟩
      exact bytes_blank (by simp [hblank])
  | cons i rest =>
    obtain ⟨a, buf⟩ := i
    obtain ⟨hdata, hbuf, hok, hfirst⟩ := hrep.body
    obtain ⟨buf', hmoved, hok', hcontent, hfirst'⟩ :=
      hok.moved hfirst read (ustreamShouldMove l a buf len) hstrings
    have hrep' := hrep.setFirst hok' hfirst'
    have hbytes : bytes (pre ++ (a, buf') :: rest) = bytes (pre ++ (a, buf) :: rest) := by
      rw [hrep'.bytes_eq, hrep.bytes_eq, hcontent]
    rw [hdata]
    dsimp only
    rw [hbuf, Option.bind_some, hmoved, Option.bind_some]
    by_cases hend : buf'.tail ≠ buf'.size
    · refine ⟨true, _, if_pos hend, ⟨_, _, hrep', hbytes⟩, rfl, fun _ => ⟨_, hrep'.room, ?_⟩⟩
      have htail := hok'.tail
      omega
    · -- the buffer is full, and one of those in front now
      have hlt : buf'.data < buf'.tail := by
        refine hfirst'.resolve_left fun hblank => ?_
        have hpos := hok'.pos
        have htail := hblank.2
        omega
      have hfull : ∀ i ∈ pre ++ [(a, buf')], i.2.data < i.2.tail := by
        intro i hi
        rcases List.mem_append.1 hi with hi | hi
        · exact hrep.full i hi
        · obtain rfl := List.mem_singleton.1 hi
          exact hlt
      have hchain : Chain pad (l.setBuf a buf') ((pre ++ [(a, buf')]) ++ rest) := by
        rw [List.append_assoc]
        exact hrep'.chain
      have hnext : (l.setBuf a buf').next a = (addrs rest).head? := by
        have hlinked := hrep.chain.linked
        rw [addrs_append] at hlinked
        exact hlinked.next_eq
      rw [if_neg hend, hnext]
      cases rest with
      | nil =>
        rw [List.append_nil] at hchain
        rcases addData_spec malloc hchain hfull hpad with
          hadd | ⟨l', i, hadd, hrep'', hblank, hcount⟩
        · exact ⟨false, _, hadd, ⟨_, _, hrep', hbytes⟩, rfl, by simp⟩
        · refine ⟨true, l', hadd, ⟨_, _, hrep'', ?_⟩, hcount, fun _ => hrep''.room_blank hblank⟩
          have hi : bytes [i] = [] := bytes_blank (by simp [hblank])
          rw [← hbytes, bytes_append, hi, List.append_nil]
      | cons i rest =>
        have hblank : i.2.Blank := hrep.blank i List.mem_cons_self
        have hrep'' : Rep pad { l.setBuf a buf' with dataTail := some i.1 } (pre ++ [(a, buf')])
            (i :: rest) := by
          refine ⟨{ hchain with }, rfl, hfull, ?_, ?_, by simp⟩
          · rintro _ ⟨⟩
            exact .inl hblank
          · exact fun j hj => hrep.blank j (List.mem_cons_of_mem i hj)
        refine ⟨true, _, rfl, ⟨_, _, hrep'', ?_⟩, rfl, fun _ => hrep''.room_blank hblank⟩
        rw [← hbytes, List.append_assoc]
        rfl

/-- Bytes are put into the room. -/
theorem Holds.put (h : Holds pad l q) {room : ℕ} (hroom : l.room = some room) (hbs : bs.length ≤ room)
    (hn : n ≤ bs.length) :
    ∃ l', l.put bs n = some l' ∧ Holds pad l' (q ++ bs.take n) ∧ l'.dataBytes = l.dataBytes + n := by
  obtain ⟨pre, rest, hrep, rfl⟩ := h
  cases rest with
  | nil =>
    rw [BufList.room, hrep.dataTail] at hroom
    cases hroom
  | cons i rest =>
    obtain ⟨a, buf⟩ := i
    obtain ⟨hdata, hbuf, hok, hfirst⟩ := hrep.body
    rw [hrep.room] at hroom
    obtain rfl := Option.some.inj hroom
    obtain ⟨mem, hwrite, hok', hcontent⟩ := hok.put hbs hn
    have hfirst' : Buf.Blank { buf with mem := mem, tail := buf.tail + n } ∨
        buf.data < buf.tail + n := by
      have hle := hok.data
      rcases Nat.eq_zero_or_pos n with rfl | hpos
      · exact hfirst
      · exact .inr (by omega)
    have hrep' := hrep.setFirst hok' hfirst'
    rw [BufList.put, hdata, Option.bind_some, hbuf, Option.bind_some, hwrite, Option.bind_some]
    refine ⟨_, rfl, Holds.dataBytes ⟨_, _, hrep', ?_⟩ _, rfl⟩
    rw [hrep'.bytes_eq, hrep.bytes_eq, hcontent, List.append_assoc]

/-- The implementation puts bytes into the room and reports them. -/
theorem Holds.fill (h : Holds pad l q) (hpad : pad = strings.toNat) {room : ℕ}
    (hroom : l.room = some room) (hbs : bs.length ≤ room) :
    ∃ l₁ l₂, l.copyIn bs = some l₁ ∧
      fillReadLoop strings (bs.length + 1) l₁.dataTail bs.length
        { l₁ with dataBytes := l₁.dataBytes + bs.length } = some l₂ ∧
      Holds pad l₂ (q ++ bs) ∧ l₂.dataBytes = l.dataBytes + bs.length := by
  obtain ⟨pre, rest, hrep, rfl⟩ := h
  have hstrings : strings = true → pad = 1 := by
    rintro rfl
    exact hpad
  cases rest with
  | nil =>
    rw [BufList.room, hrep.dataTail] at hroom
    cases hroom
  | cons i rest =>
    obtain ⟨a, buf⟩ := i
    obtain ⟨hdata, hbuf, hok, hfirst⟩ := hrep.body
    rw [hrep.room] at hroom
    obtain rfl := Option.some.inj hroom
    obtain ⟨mem, hwrite, hok', hcontent⟩ := hok.put hbs le_rfl
    rw [List.take_length] at hcontent
    obtain ⟨buf', hfix, hok'', hcontent'', hdata'', htail'', -⟩ := hok'.fixup hstrings
    have hfirst' : buf'.Blank ∨ buf'.data < buf'.tail := by
      have hle := hok.data
      unfold Buf.Blank at hfirst ⊢
      rw [hdata'', htail'']
      rcases Nat.eq_zero_or_pos bs.length with hzero | hpos
      · rw [hzero]
        exact hfirst
      · exact .inr (by dsimp only; omega)
    have hrep' := hrep.setFirst hok'' hfirst'
    rw [BufList.copyIn, hdata, Option.bind_some, hbuf, Option.bind_some, hwrite, Option.bind_some]
    refine ⟨_, _, rfl, ?_, Holds.dataBytes ⟨_, _, hrep', ?_⟩ (l.dataBytes + bs.length), rfl⟩
    · have hdata' : (l.setBuf a { buf with mem := mem }).dataTail = some a := hdata
      have hbuf' : (l.setBuf a { buf with mem := mem }).bufs a = some { buf with mem := mem } :=
        Function.update_self _ _ _
      rw [hdata', fillReadLoop, hbuf', Option.bind_some]
      dsimp only
      rw [min_eq_left hbs, hfix, Option.bind_some, if_pos (Nat.sub_self _), ← hdata]
      simp only [BufList.setBuf, Function.update_idem]
    · rw [hrep'.bytes_eq, hrep.bytes_eq, hcontent'', hcontent, List.append_assoc]

/-- The first buffer of a list that holds `q`. -/
structure First (pad : ℕ) (l : BufList) (q : Bytes) (a : ℕ) (buf : Buf) : Prop where
  head : l.head = some a
  body : l.bufs a = some buf
  ok : buf.Ok pad
  take : q.take buf.content.length = buf.content
  empty : buf.content = [] → q = []
  advance : ∀ k < buf.content.length,
    Holds pad (l.setBuf a { buf with data := buf.data + k }) (q.drop k)
  free : ∃ l', ustreamFreeBuf l a = some l' ∧ Holds pad l' (q.drop buf.content.length) ∧
    l'.dataBytes = l.dataBytes ∧
    (l.next a = l'.head ∨ l.next a = none ∧ q.drop buf.content.length = [])

/-- The first bytes of a buffer are dropped. -/
theorem Buf.Ok.advance (h : buf.Ok pad) {k : ℕ} (hk : k < buf.content.length) :
    Buf.Ok pad { buf with data := buf.data + k } ∧ buf.data + k < buf.tail ∧
      Buf.content { buf with data := buf.data + k } = buf.content.drop k := by
  rw [h.content_length] at hk
  refine ⟨⟨h.pos, h.mem, ?_, h.tail⟩, by omega, ?_⟩
  · change buf.data + k ≤ buf.tail
    omega
  · rw [Buf.content, Buf.content, List.drop_take, List.drop_drop, Nat.sub_add_eq]

theorem bytes_cons : bytes (i :: items) = i.2.content ++ bytes items := List.flatMap_cons

/-- The first buffer is freed, where `data_tail` is then the first one of `rest`. -/
theorem Chain.free_first (h : Chain pad l (i :: (pre ++ rest)))
    (hdata : (Ustream.unlink l i.1).dataTail = (addrs rest).head?)
    (hfull : ∀ j ∈ pre, j.2.data < j.2.tail) (hfirst : ∀ j ∈ rest.head?, j.2.Blank ∨ j.2.data < j.2.tail)
    (hblank : ∀ j ∈ rest.tail, j.2.Blank) (hempty : rest = [] → pre = []) :
    ∃ l', ustreamFreeBuf l i.1 = some l' ∧ Holds pad l' (bytes (pre ++ rest)) ∧
      l'.dataBytes = l.dataBytes ∧
      (l.next i.1 = l'.head ∨ l.next i.1 = none ∧ bytes (pre ++ rest) = []) := by
  obtain ⟨l', again, hfree, hchain, hagain, hcount, hdata'⟩ := h.free fun hnone => by
    rw [hdata, List.head?_eq_none_iff, addrs, List.map_eq_nil_iff] at hnone
    rw [hnone, hempty hnone]
    rfl
  rw [hdata, ← List.head?_append, ← addrs_append] at hdata'
  have hrep : Rep pad l' pre (rest ++ again) := by
    refine ⟨by rw [← List.append_assoc]; exact hchain, hdata', hfull, ?_, ?_, ?_⟩
    · intro j hj
      cases rest with
      | nil => exact .inl (hagain j (List.mem_of_mem_head? hj))
      | cons k rest => exact hfirst j hj
    · intro j hj
      cases rest with
      | nil => exact hagain j (List.mem_of_mem_tail hj)
      | cons k rest =>
        rcases List.mem_append.1 hj with hj | hj
        · exact hblank j hj
        · exact hagain j hj
    · intro hnil
      exact hempty (List.append_eq_nil_iff.1 hnil).1
  have hbytes : bytes (pre ++ (rest ++ again)) = bytes (pre ++ rest) := by
    rw [← List.append_assoc, bytes_append, bytes_blank hagain, List.append_nil]
  refine ⟨l', hfree, ⟨pre, _, hrep, hbytes⟩, hcount, ?_⟩
  have hnext : l.next i.1 = (addrs (pre ++ rest)).head? := h.linked.1
  cases hitems : pre ++ rest with
  | nil =>
    rw [hitems] at hnext
    exact .inr ⟨hnext, rfl⟩
  | cons j items =>
    have hhead : l'.head = some j.1 := by
      rw [hchain.head, hitems]
      rfl
    rw [hitems] at hnext
    exact .inl (hnext.trans hhead.symm)

/-- The first buffer stands in front of `data_tail`. -/
theorem Rep.first_pre (h : Rep pad l ((a, buf) :: pre) rest) :
    First pad l (bytes ((a, buf) :: pre ++ rest)) a buf := by
  have hok : buf.Ok pad := h.chain.ok (a, buf) List.mem_cons_self
  have hlt : buf.data < buf.tail := h.full (a, buf) List.mem_cons_self
  have hrest : rest ≠ [] := fun hnil => nomatch h.empty hnil
  have ha : a ∉ addrs (pre ++ rest) := (List.nodup_cons.1 h.chain.nodup).1
  have hpre : ∀ j ∈ pre, j.2.data < j.2.tail := fun j hj => h.full j (List.mem_cons_of_mem _ hj)
  have hdata : (unlink l a).dataTail = (addrs rest).head? := by
    refine (if_neg fun heq => ha ?_).trans h.dataTail
    rw [h.dataTail] at heq
    rw [addrs_append]
    exact List.mem_append_right _ (List.mem_of_mem_head? heq.symm)
  rw [List.cons_append, bytes_cons]
  refine ⟨h.chain.head, h.chain.bodies (a, buf) List.mem_cons_self, hok, List.take_left, ?_, ?_, ?_⟩
  · intro hnil
    have hcontent := hok.content_length
    rw [hnil, List.length_nil] at hcontent
    omega
  · intro k hk
    obtain ⟨hok', hlt', hdrop⟩ := hok.advance hk
    refine ⟨(a, _) :: pre, rest, ⟨@Chain.setBuf _ _ _ _ _ [] _ h.chain hok', h.dataTail, ?_, h.first, h.blank,
      fun hnil => (hrest hnil).elim⟩, ?_⟩
    · rintro j (- | ⟨-, hj⟩)
      · exact hlt'
      · exact hpre j hj
    · rw [List.cons_append, bytes_cons, hdrop, List.drop_append_of_le_length hk.le]
  · rw [List.drop_left]
    exact Chain.free_first h.chain hdata hpre h.first h.blank fun hnil => (hrest hnil).elim

/-- The first buffer is `data_tail`. -/
theorem Rep.first_rest (h : Rep pad l [] ((a, buf) :: rest)) :
    First pad l (bytes ((a, buf) :: rest)) a buf := by
  obtain ⟨hdata, hbuf, hok, hfirst⟩ := h.body
  have hrest : bytes rest = [] := bytes_blank h.blank
  have hnext : l.next a = (addrs rest).head? := h.chain.linked.1
  have hdata' : (unlink l a).dataTail = (addrs rest).head? := by
    rw [unlink, hdata, if_pos rfl, hnext]
  rw [bytes_cons]
  refine ⟨h.chain.head, hbuf, hok, List.take_left, ?_, ?_, ?_⟩
  · intro hnil
    rw [hrest, List.append_nil]
    exact hnil
  · intro k hk
    obtain ⟨hok', hlt', hdrop⟩ := hok.advance hk
    refine ⟨[], _, h.setFirst hok' (.inr hlt'), ?_⟩
    rw [List.nil_append, bytes_cons, hdrop, List.drop_append_of_le_length hk.le]
  · rw [List.drop_left]
    refine @Chain.free_first _ _ [] _ _ h.chain hdata' nofun ?_ ?_ fun _ => rfl
    · exact fun j hj => .inl (h.blank j (List.mem_of_mem_head? hj))
    · exact fun j hj => h.blank j (List.mem_of_mem_tail hj)

/-- A list without bytes has no buffer, or it has a first one. -/
theorem Holds.first (h : Holds pad l q) :
    l.head = none ∧ q = [] ∨ ∃ a buf, First pad l q a buf := by
  obtain ⟨pre, rest, hrep, rfl⟩ := h
  cases pre with
  | cons i pre => exact .inr ⟨i.1, i.2, hrep.first_pre⟩
  | nil =>
    cases rest with
    | nil => exact .inl ⟨hrep.chain.head, rfl⟩
    | cons i rest => exact .inr ⟨i.1, i.2, hrep.first_rest⟩

theorem First.dataBytes (h : First pad l q a buf) (hholds : Holds pad l q) (m : ℤ) :
    First pad { l with dataBytes := m } q a buf := by
  rcases (hholds.dataBytes m).first with ⟨hnone, -⟩ | ⟨b, buf', h'⟩
  · cases h.head.symm.trans hnone
  · obtain rfl := Option.some.inj (h.head.symm.trans h'.head)
    obtain rfl := Option.some.inj (h.body.symm.trans h'.body)
    exact h'

end

/-! ## Reading -/

/-- The list holds the bytes `q`, and its counter says how many they are. -/
def Counted (pad : ℕ) (l : BufList) (q : Bytes) : Prop := Holds pad l q ∧ l.dataBytes = q.length

section
variable {pad fuel len : ℕ} {l : BufList} {q : Bytes} {cur : Option ℕ} {s : Ustream} {w r : Bytes}

/-- The loop of `ustream_consume` drops the first bytes. -/
theorem consumeLoop_spec (h : Holds pad l q) (hcur : cur = l.head ∨ cur = none ∧ q = []) (hpos : 0 < len)
    (hlen : len ≤ q.length) (hfuel : len ≤ fuel) :
    ∃ l', consumeLoop fuel cur len l = some l' ∧ Holds pad l' (q.drop len) ∧
      l'.dataBytes = l.dataBytes := by
  induction fuel generalizing cur len l q with
  | zero => omega
  | succ fuel ih =>
    have hq : q ≠ [] := List.ne_nil_of_length_pos (hpos.trans_le hlen)
    rcases h.first with ⟨-, hnil⟩ | ⟨a, buf, hfirst⟩
    · exact (hq hnil).elim
    have hhead : cur = some a := (hcur.resolve_right fun hc => hq hc.2).trans hfirst.head
    have hcontent := hfirst.ok.content_length
    rw [hhead, consumeLoop, hfirst.body, Option.bind_some]
    dsimp only
    rw [← hcontent]
    by_cases hlt : len < buf.content.length
    · rw [if_pos hlt]
      exact ⟨_, rfl, hfirst.advance len hlt, rfl⟩
    · have hne : 0 < buf.content.length := List.length_pos_of_ne_nil fun hnil => hq (hfirst.empty hnil)
      obtain ⟨l', hfree, hholds, hcount, hnext⟩ := hfirst.free
      rw [if_neg hlt, hfree, Option.bind_some]
      by_cases hdone : len - buf.content.length = 0
      · have heq : len = buf.content.length := by omega
        rw [if_pos hdone, heq]
        exact ⟨l', rfl, hholds, hcount⟩
      · rw [if_neg hdone]
        obtain ⟨l'', hloop, hholds', hcount'⟩ := ih hholds hnext (Nat.pos_of_ne_zero hdone)
          (by rw [List.length_drop]; omega) (by omega)
        refine ⟨l'', hloop, ?_, hcount'.trans hcount⟩
        rw [List.drop_drop, Nat.add_sub_cancel' (Nat.le_of_not_lt hlt)] at hholds'
        exact hholds'

/-- What a stream holds in its two lists. -/
structure Queues (s : Ustream) (w r : Bytes) : Prop where
  write : Counted s.stringData.toNat s.w w
  read : Counted s.stringData.toNat s.r r

/-- **`ustream_consume`** drops the first bytes. -/
theorem Queues.consume (h : Queues s w r) (hlen : len ≤ r.length) :
    ∃ s', ustreamConsume s len = some s' ∧ Queues s' w (r.drop len) ∧ s'.sent = s.sent := by
  unfold ustreamConsume
  by_cases hzero : len = 0
  · rw [if_pos hzero, hzero]
    exact ⟨s, rfl, h, rfl⟩
  · obtain ⟨hholds, hcount⟩ := h.read
    obtain ⟨l', hloop, hholds', hcount'⟩ := consumeLoop_spec (hholds.dataBytes (s.r.dataBytes - len))
      (.inl rfl) (Nat.pos_of_ne_zero hzero) hlen le_rfl
    rw [if_neg hzero]
    dsimp only
    rw [if_neg (by omega)]
    change ∃ s', (consumeLoop len s.r.head len { s.r with dataBytes := s.r.dataBytes - len }).bind _ = _ ∧ _
    rw [hloop]
    refine ⟨_, rfl, ⟨h.write, hholds', ?_⟩, rfl⟩
    rw [hcount', hcount, List.length_drop, Nat.cast_sub hlen]

/-- `ustream_get_read_buf` shows the first bytes, if there are any. -/
theorem Queues.getReadBuf (h : Queues s w r) :
    (ustreamGetReadBuf s = some none ∧ r = []) ∨
    ∃ chunk, ustreamGetReadBuf s = some (some chunk) ∧ chunk ≠ [] ∧ r.take chunk.length = chunk := by
  unfold ustreamGetReadBuf
  rcases h.read.1.first with ⟨hhead, hnil⟩ | ⟨a, buf, hfirst⟩
  · rw [hhead]
    exact .inl ⟨rfl, hnil⟩
  · have hcontent := hfirst.ok.content_length
    rw [hfirst.head]
    dsimp only
    rw [hfirst.body, Option.bind_some]
    by_cases hzero : buf.tail - buf.data = 0
    · rw [if_pos hzero]
      refine .inl ⟨rfl, hfirst.empty (List.eq_nil_of_length_eq_zero (hcontent.trans hzero))⟩
    · rw [if_neg hzero, hfirst.ok.read]
      refine .inr ⟨buf.content, rfl, ?_, hfirst.take⟩
      intro hnil
      rw [hnil] at hcontent
      exact hzero hcontent.symm

theorem take_of_take {chunk : Bytes} (h : r.take chunk.length = chunk) {k : ℕ} (hk : k ≤ chunk.length) :
    chunk.take k = r.take k := by
  calc chunk.take k = (r.take chunk.length).take k := by rw [h]
    _ = r.take k := by rw [List.take_take, min_eq_left hk]

/-- The loop of `ustream_read` delivers the first bytes. -/
theorem readLoop_spec {buflen : ℕ} {got : Bytes} (h : Queues s w r) (hgot : got.length ≤ buflen)
    (hfuel : buflen - got.length < fuel) :
    ∃ n s', readLoop fuel buflen got s = some (got ++ r.take n, s') ∧ n ≤ r.length ∧
      Queues s' w (r.drop n) ∧ s'.sent = s.sent := by
  induction fuel generalizing s r got with
  | zero => omega
  | succ fuel ih =>
    rw [readLoop]
    rcases h.getReadBuf with ⟨hget, rfl⟩ | ⟨chunk, hget, hne, htake⟩
    · rw [hget]
      exact ⟨0, s, by rw [List.take_zero, List.append_nil]; rfl, le_rfl, h, rfl⟩
    · have hchunk : chunk.length ≤ r.length := by
        have hlen := congrArg List.length htake
        rw [List.length_take] at hlen
        omega
      have hle : min chunk.length (buflen - got.length) ≤ r.length := (min_le_left _ _).trans hchunk
      obtain ⟨s', hconsume, hqueues, hsent⟩ := h.consume hle
      rw [hget, Option.bind_some]
      dsimp only
      rw [hconsume, Option.bind_some, take_of_take htake (min_le_left _ _)]
      split_ifs with hmore
      · rw [List.length_append, List.length_take, min_eq_left hle] at hmore
        have hpos := List.length_pos_of_ne_nil hne
        obtain ⟨n, s'', hloop, hn, hqueues', hsent'⟩ := @ih s' _ (got ++ r.take _) hqueues
          (by rw [List.length_append, List.length_take, min_eq_left hle]; omega)
          (by rw [List.length_append, List.length_take, min_eq_left hle]; omega)
        refine ⟨min chunk.length (buflen - got.length) + n, s'', ?_, ?_, ?_, hsent'.trans hsent⟩
        · rw [hloop, List.append_assoc, ← List.take_add]
        · rw [List.length_drop] at hn
          omega
        · rw [← List.drop_drop]
          exact hqueues'
      · exact ⟨_, s', rfl, hle, hqueues, hsent⟩

/-! ## Writing -/

section
variable {accepts : ℕ → ℕ} {mallocs : ℕ → Bool} {data : Bytes} {wr : ℕ}

/-- The calls out of a stream leave its lists alone. -/
theorem Queues.calls (h : Queues s w r) (calls : ℕ) (sent : Bytes) :
    Queues { s with calls := calls, sent := sent } w r := ⟨h.write, h.read⟩

/-- `s->write` accepts the first bytes. -/
theorem write_spec (accepts : ℕ → ℕ) (bs : Bytes) (h : Queues s w r) :
    ∃ n s', s.write accepts bs = (n, s') ∧ n ≤ bs.length ∧ Queues s' w r ∧
      s'.sent = s.sent ++ bs.take n ∧ s'.w = s.w ∧ s'.r = s.r ∧ s'.stringData = s.stringData :=
  ⟨_, _, rfl, min_le_right _ _, h.calls _ _, rfl, rfl, rfl, rfl⟩

/-- Room for writing. -/
theorem Queues.prepareWrite (mallocs : ℕ → Bool) (len : ℕ) (h : Queues s w r) :
    ∃ ok s', prepareWrite mallocs s len = some (ok, s') ∧ Queues s' w r ∧ s'.sent = s.sent ∧
      (ok = true → ∃ room, s'.w.room = some room ∧ 0 < room) := by
  obtain ⟨ok, l', hprepare, hholds, hcount, hroom⟩ :=
    h.write.1.prepare false (mallocs s.calls) len rfl
  unfold Ustream.prepareWrite
  rw [hprepare]
  exact ⟨ok, _, rfl, ⟨⟨hholds, hcount.trans h.write.2⟩, h.read⟩, rfl, hroom⟩

/-- Bytes for writing are put into the room. -/
theorem Queues.put (h : Queues s w r) {room n : ℕ} {bs : Bytes} (hroom : s.w.room = some room)
    (hbs : bs.length ≤ room) (hn : n ≤ bs.length) :
    ∃ l', s.w.put bs n = some l' ∧ Queues { s with w := l' } (w ++ bs.take n) r := by
  obtain ⟨l', hput, hholds, hcount⟩ := h.write.1.put hroom hbs hn
  refine ⟨l', hput, ⟨hholds, ?_⟩, h.read⟩
  rw [hcount, h.write.2, List.length_append, List.length_take, min_eq_left hn, Nat.cast_add]

/-- **`ustream_write_buffered`** puts as many bytes at the end of the queue as it reports. -/
theorem writeBuffered_spec (h : Queues s w r) (hfuel : data.length ≤ fuel) :
    ∃ n s', ustreamWriteBuffered mallocs fuel data wr s = some (wr + n, s') ∧ n ≤ data.length ∧
      Queues s' (w ++ data.take n) r ∧ s'.sent = s.sent := by
  induction fuel generalizing data wr s w with
  | zero =>
    obtain rfl := List.eq_nil_of_length_eq_zero (Nat.le_zero.1 hfuel)
    refine ⟨0, s, rfl, le_rfl, ?_, rfl⟩
    rw [List.take_zero, List.append_nil]
    exact h
  | succ fuel ih =>
    cases data with
    | nil =>
      refine ⟨0, s, rfl, le_rfl, ?_, rfl⟩
      rw [List.take_zero, List.append_nil]
      exact h
    | cons b data =>
      obtain ⟨ok, s₁, hprepare, hqueues, hsent, hroom⟩ :=
        h.prepareWrite mallocs (b :: data).length
      unfold ustreamWriteBuffered
      rw [hprepare, Option.bind_some]
      cases ok with
      | false =>
        refine ⟨0, s₁, rfl, Nat.zero_le _, ?_, hsent⟩
        rw [List.take_zero, List.append_nil]
        exact hqueues
      | true =>
        obtain ⟨room, hr, hpos⟩ := hroom rfl
        have hn : min room (b :: data).length ≤ (b :: data).length := min_le_right _ _
        have hlen : ((b :: data).take (min room (b :: data).length)).length =
            min room (b :: data).length := by
          rw [List.length_take, min_eq_left hn]
        obtain ⟨l', hput, hqueues'⟩ := hqueues.put hr (hlen.le.trans (min_le_left _ _)) hlen.ge
        rw [List.take_take, min_self] at hqueues'
        dsimp only
        rw [if_neg (by simp), hr, Option.bind_some, hput, Option.bind_some]
        have hmin : 0 < min room (b :: data).length := lt_min hpos (Nat.succ_pos _)
        obtain ⟨n, s₂, hloop, hn', hqueues₂, hsent₂⟩ := @ih _ _
          ((b :: data).drop (min room (b :: data).length)) (wr + min room (b :: data).length)
          hqueues' (by rw [List.length_drop]; omega)
        refine ⟨min room (b :: data).length + n, s₂, ?_, ?_, ?_, hsent₂.trans hsent⟩
        · rw [hloop, Nat.add_assoc]
        · rw [List.length_drop] at hn'
          omega
        · rw [List.take_add, ← List.append_assoc]
          exact hqueues₂

/-- The loop of `ustream_write_pending` hands over the first bytes. -/
theorem writePendingLoop_spec (accepts : ℕ → ℕ) (fuel : ℕ) {cur : Option ℕ} (h : Queues s w r)
    (hcur : cur = s.w.head ∨ cur = none ∧ w = []) (hfuel : w.length < fuel) :
    ∃ n s', writePendingLoop accepts fuel cur s = some s' ∧ n ≤ w.length ∧ Queues s' (w.drop n) r ∧
      s'.sent = s.sent ++ w.take n := by
  induction fuel generalizing cur s w with
  | zero => omega
  | succ fuel ih =>
    have hstop : ∃ n s', some s = some s' ∧ n ≤ w.length ∧ Queues s' (w.drop n) r ∧
        s'.sent = s.sent ++ w.take n :=
      ⟨0, s, rfl, Nat.zero_le _, h, by rw [List.take_zero, List.append_nil]⟩
    cases cur with
    | none => exact hstop
    | some a =>
      rw [writePendingLoop]
      by_cases hzero : s.w.dataBytes = 0
      · rw [if_pos hzero]
        exact hstop
      · have hw : w ≠ [] := by
          rintro rfl
          exact hzero h.write.2
        rcases h.write.1.first with ⟨-, hnil⟩ | ⟨b, buf, hfirst⟩
        · exact (hw hnil).elim
        have hhead : some a = some b := (hcur.resolve_right fun hc => hw hc.2).trans hfirst.head
        obtain rfl := Option.some.inj hhead
        have hne : 0 < buf.content.length := List.length_pos_of_ne_nil fun hnil => hw (hfirst.empty hnil)
        have hle : buf.content.length ≤ w.length := by
          have hlen := congrArg List.length hfirst.take
          rw [List.length_take] at hlen
          omega
        obtain ⟨n, s₁, hwrite, hn, hqueues, hsent, hsw, hsr, hss⟩ :=
          write_spec accepts buf.content h
        rw [take_of_take hfirst.take hn] at hsent
        rw [if_neg hzero, hfirst.body, Option.bind_some, hfirst.ok.read, Option.bind_some]
        dsimp only
        rw [hwrite]
        dsimp only
        by_cases hnone : n = 0
        · rw [if_pos hnone]
          refine ⟨0, s₁, rfl, Nat.zero_le _, hqueues, ?_⟩
          rw [hsent, hnone]
        · have hcount : s.w.dataBytes - n = (w.drop n).length := by
            rw [List.length_drop, h.write.2]
            omega
          rw [if_neg hnone, hsw]
          by_cases hpart : n < buf.content.length
          · rw [if_pos hpart]
            refine ⟨n, _, rfl, hn.trans hle, ⟨⟨?_, hcount⟩, hqueues.read⟩, hsent⟩
            rw [hss]
            exact (hfirst.advance n hpart).dataBytes _
          · obtain rfl : n = buf.content.length := by omega
            obtain ⟨l', hfree, hholds, hcount', hnext⟩ :=
              (hfirst.dataBytes h.write.1 (s.w.dataBytes - buf.content.length)).free
            have hqueues' : Queues { s₁ with w := l' } (w.drop buf.content.length) r :=
              ⟨⟨hss ▸ hholds, hcount'.trans hcount⟩, hqueues.read⟩
            obtain ⟨m, s₂, hloop, hm, hqueues₂, hsent₂⟩ := ih hqueues' hnext (by rw [List.length_drop]; omega)
            rw [if_neg hpart, hfree, Option.bind_some, hloop]
            refine ⟨buf.content.length + m, s₂, rfl, ?_, ?_, ?_⟩
            · rw [List.length_drop] at hm
              omega
            · rw [← List.drop_drop]
              exact hqueues₂
            · rw [hsent₂, hsent, List.append_assoc, ← List.take_add]

/-- What the calls for writing do: they report `n` bytes, and these are handed over or queued behind
    those that were there. -/
def Wrote (s s' : Ustream) (w r data : Bytes) (n : ℕ) : Prop :=
  n ≤ data.length ∧ ∃ w', Queues s' w' r ∧ s'.sent ++ w' = s.sent ++ w ++ data.take n

theorem Wrote.none {s' : Ustream} (hs : Queues s' w r) (hsent : s'.sent = s.sent) :
    Wrote s s' w r data 0 := by
  refine ⟨Nat.zero_le _, w, hs, ?_⟩
  rw [hsent, List.take_zero, List.append_nil]

/-- Bytes are queued behind others of the same call. -/
theorem Wrote.buffered {s₁ : Ustream} {n fuel : ℕ} (mallocs : ℕ → Bool)
    (h : Wrote s s₁ w r data n) (hfuel : (data.drop n).length ≤ fuel) :
    ∃ m s', ustreamWriteBuffered mallocs fuel (data.drop n) n s₁ = some (m, s') ∧
      Wrote s s' w r data m := by
  obtain ⟨hn, w', hqueues, hsent⟩ := h
  obtain ⟨m, s', hloop, hm, hqueues', hsent'⟩ := writeBuffered_spec hqueues hfuel
  refine ⟨n + m, s', hloop, ?_, _, hqueues', ?_⟩
  · rw [List.length_drop] at hm
    omega
  · rw [hsent', ← List.append_assoc, hsent, List.append_assoc, ← List.take_add]

/-- A stream without pending bytes hands over what it can. -/
theorem Queues.write_first (h : Queues s [] r) (accepts : ℕ → ℕ) (data : Bytes) :
    ∃ n s', s.write accepts data = (n, s') ∧ Wrote s s' [] r data n := by
  obtain ⟨n, s', hwrite, hn, hqueues, hsent, -⟩ := write_spec accepts data h
  refine ⟨n, s', hwrite, hn, [], hqueues, ?_⟩
  rw [hsent, List.append_nil, List.append_nil]

theorem Queues.empty (h : Queues s w r) (hzero : s.w.dataBytes = 0) : w = [] := by
  have hcount := h.write.2
  refine List.eq_nil_of_length_eq_zero ?_
  omega

/-- **`ustream_write`** takes as many bytes as it reports. -/
theorem write_wrote (h : Queues s w r) (accepts : ℕ → ℕ) (mallocs : ℕ → Bool) (data : Bytes) :
    ∃ n s', ustreamWrite accepts mallocs s data = some (n, s') ∧ Wrote s s' w r data n := by
  unfold ustreamWrite
  by_cases hzero : s.w.dataBytes = 0
  · obtain rfl := h.empty hzero
    obtain ⟨n, s₁, hwrite, hwrote⟩ := h.write_first accepts data
    rw [if_pos hzero, hwrite]
    dsimp only
    by_cases hall : n = data.length
    · rw [if_pos hall]
      exact ⟨n, s₁, rfl, hwrote⟩
    · rw [if_neg hall]
      exact hwrote.buffered mallocs (by rw [List.length_drop]; exact Nat.sub_le _ _)
  · rw [if_neg hzero]
    exact (Wrote.none h rfl).buffered mallocs le_rfl

/-- **`ustream_vprintf`** takes as many bytes of the text as it reports. -/
theorem vprintf_wrote (h : Queues s w r) (accepts : ℕ → ℕ) (mallocs : ℕ → Bool) (text : Bytes) :
    ∃ n s', ustreamVprintf accepts mallocs s text = some (n, s') ∧ Wrote s s' w r text n := by
  unfold ustreamVprintf
  by_cases hzero : s.w.dataBytes = 0
  · obtain rfl := h.empty hzero
    rw [if_pos hzero]
    by_cases hshort : text.length < MAX_STACK_BUFLEN
    · obtain ⟨n, s₁, hwrite, hwrote⟩ := h.write_first accepts text
      rw [if_pos hshort, hwrite]
      dsimp only
      by_cases hall : n = text.length
      · rw [if_pos hall]
        exact ⟨n, s₁, rfl, hwrote⟩
      · rw [if_neg hall]
        exact hwrote.buffered mallocs (by rw [List.length_drop]; exact Nat.sub_le _ _)
    · rw [if_neg hshort]
      have hcalls := h.calls (s.calls + 1) s.sent
      by_cases hmalloc : ¬mallocs s.calls
      · rw [if_pos hmalloc]
        exact ⟨0, _, rfl, .none hcalls rfl⟩
      · rw [if_neg hmalloc]
        exact write_wrote hcalls accepts mallocs text
  · rw [if_neg hzero]
    obtain ⟨ok, s₁, hprepare, hqueues, hsent, hroom⟩ := h.prepareWrite mallocs 1
    rw [hprepare, Option.bind_some]
    cases ok with
    | false => exact ⟨0, s₁, rfl, .none hqueues hsent⟩
    | true =>
      obtain ⟨buflen, hr, hpos⟩ := hroom rfl
      dsimp only
      rw [if_neg (by simp), hr, Option.bind_some]
      -- the text that fits in front of the NUL
      generalize hwr : (if buflen ≤ text.length then buflen - 1 else text.length) = wr
      have hle : wr ≤ text.length := by
        split_ifs at hwr <;> omega
      have hfits : wr + 1 ≤ buflen := by
        split_ifs at hwr <;> omega
      have hlen : (text.take wr ++ [0]).length = wr + 1 := by
        rw [List.length_append, List.length_take, min_eq_left hle, List.length_singleton]
      have htake : (text.take wr ++ [0]).take wr = text.take wr := by
        rw [List.take_append_of_le_length (by rw [List.length_take, min_eq_left hle]), List.take_take,
          min_self]
      have hcounts : wr ≤ (text.take wr ++ [0]).length := by
        rw [hlen]
        exact Nat.le_succ wr
      obtain ⟨l', hput, hqueues'⟩ := hqueues.put hr (hlen.le.trans hfits) hcounts
      rw [htake] at hqueues'
      have hwrote : ∀ calls, Wrote s { s₁ with w := l', calls := calls } w r text wr := by
        refine fun calls => ⟨hle, _, hqueues'.calls calls _, ?_⟩
        rw [← hsent, List.append_assoc]
      rw [hput, Option.bind_some]
      by_cases hall : text.length < buflen
      · rw [if_pos hall]
        exact ⟨wr, _, rfl, hwrote _⟩
      · rw [if_neg hall]
        by_cases hmalloc : ¬mallocs s₁.calls
        · rw [if_pos hmalloc]
          exact ⟨wr, _, rfl, hwrote _⟩
        · rw [if_neg hmalloc]
          exact (hwrote _).buffered mallocs (by rw [List.length_drop]; exact Nat.sub_le _ _)

/-- **`ustream_write_pending`** hands over the first bytes of the queue. -/
theorem writePending_spec (h : Queues s w r) (accepts : ℕ → ℕ) :
    ∃ ok s' w', ustreamWritePending accepts s = some (ok, s') ∧ Queues s' w' r ∧
      s'.sent ++ w' = s.sent ++ w := by
  obtain ⟨n, s', hloop, -, hqueues, hsent⟩ := writePendingLoop_spec accepts
    (s.w.dataBytes.toNat + 1) h (.inl rfl) (by rw [h.write.2]; simp)
  unfold ustreamWritePending
  rw [hloop]
  refine ⟨_, s', w.drop n, rfl, hqueues, ?_⟩
  rw [hsent, List.append_assoc, List.take_append_drop]

/-! ## Filling -/

/-- **`ustream_reserve`** changes no byte. -/
theorem reserve_spec (h : Queues s w r) (mallocs : ℕ → Bool) (len : ℕ) :
    ∃ room s', ustreamReserve mallocs s len = some (room, s') ∧ Queues s' w r ∧ s'.sent = s.sent ∧
      (∀ n ∈ room, s'.r.room = some n) := by
  obtain ⟨ok, l', hprepare, hholds, hcount, hroom⟩ :=
    h.read.1.prepare true (mallocs s.calls) len rfl
  have hqueues : Queues { s with r := l', calls := s.calls + 1 } w r :=
    ⟨h.write, hholds, hcount.trans h.read.2⟩
  unfold ustreamReserve
  rw [hprepare]
  cases ok with
  | false => exact ⟨none, _, rfl, hqueues, rfl, nofun⟩
  | true =>
    obtain ⟨room, hr, -⟩ := hroom rfl
    refine ⟨some room, _, ?_, hqueues, rfl, ?_⟩
    · rw [Option.bind_some]
      dsimp only
      rw [if_neg (by simp), hr]
      rfl
    · rintro n ⟨⟩
      exact hr

/-- **`ustream_fill_read`** puts the bytes at the end of the queue. -/
theorem fillRead_spec (h : Queues s w r) {room : ℕ} {bs : Bytes} (hroom : s.r.room = some room)
    (hbs : bs.length ≤ room) :
    ∃ l₁ s', s.r.copyIn bs = some l₁ ∧ ustreamFillRead { s with r := l₁ } bs.length = some s' ∧
      Queues s' w (r ++ bs) ∧ s'.sent = s.sent := by
  obtain ⟨l₁, l₂, hcopy, hfill, hholds, hcount⟩ := h.read.1.fill rfl hroom hbs
  refine ⟨l₁, { s with r := l₂ }, hcopy, ?_, ⟨h.write, hholds, ?_⟩, rfl⟩
  · unfold ustreamFillRead
    rw [hfill]
    rfl
  · rw [hcount, h.read.2, List.length_append, Nat.cast_add]

end

end

/-! ## Runs -/

section
variable {pad : ℕ} {l : BufList} {items : List Item} {q : Bytes}

theorem Chain.contents (h : Chain pad l items) : l.contents = bytes items := by
  have hfrom : ∀ items : List Item, (∀ i ∈ items, l.bufs i.1 = some i.2) → Linked l.next (addrs items) →
      contentsFrom l items.length (addrs items).head? = bytes items := by
    intro items hbodies hlinked
    induction items with
    | nil => rfl
    | cons i items ih =>
      have hih := ih (fun j hj => hbodies j (List.mem_cons_of_mem i hj)) hlinked.2
      rw [List.length_cons, bytes_cons]
      change contentsFrom l (items.length + 1) (some i.1) = _
      rw [contentsFrom, hbodies i List.mem_cons_self, hlinked.1, ← hih]
      rfl
  rw [BufList.contents, h.buffers, h.head, Int.toNat_natCast]
  exact hfrom items h.bodies h.linked

theorem Counted.contents (h : Counted pad l q) : l.contents = q ∧ l.dataBytes = l.contents.length := by
  obtain ⟨⟨pre, rest, hrep, rfl⟩, hcount⟩ := h
  rw [hrep.chain.contents]
  exact ⟨rfl, hcount⟩

theorem counted_empty {minBuffers maxBuffers : ℤ} {bufferLen : ℕ} (h : 0 < bufferLen) :
    Counted pad (emptyList minBuffers maxBuffers bufferLen) [] := by
  have hchain : Chain pad (emptyList minBuffers maxBuffers bufferLen) [] :=
    ⟨nofun, nofun, nofun, List.nodup_nil, trivial, rfl, rfl, rfl, h⟩
  exact ⟨⟨[], [], ⟨hchain, rfl, nofun, nofun, nofun, fun _ => rfl⟩, rfl⟩, rfl⟩

end

/-- Nothing was lost, doubled or reordered on the way through the stream. -/
def Fifo (t : Session) : Prop :=
  ∃ w r, Queues t.s w r ∧ t.s.sent ++ w = t.accepted ∧ t.delivered ++ r = t.filled

theorem defaultSet_pos {x d : ℕ} (h : 0 < d) : 0 < defaultSet x d := by
  unfold defaultSet
  split_ifs with hx
  · exact h
  · exact Nat.pos_of_ne_zero hx

theorem fifo_init (c : Config) : Fifo (initSession c) :=
  ⟨[], [], ⟨counted_empty (defaultSet_pos (by decide)), counted_empty (defaultSet_pos (by decide))⟩, rfl, rfl⟩

section
variable {accepts : ℕ → ℕ} {mallocs : ℕ → Bool} {t : Session}

/-- A call for writing. -/
theorem Fifo.wrote {s' : Ustream} {w r data : Bytes} {n : ℕ} (hw : t.s.sent ++ w = t.accepted)
    (hr : t.delivered ++ r = t.filled) (h : Wrote t.s s' w r data n) :
    Fifo { t with s := s', accepted := t.accepted ++ data.take n } := by
  obtain ⟨-, w', hqueues, hsent⟩ := h
  exact ⟨w', r, hqueues, by rw [hsent, hw], hr⟩

/-- Bytes are taken from the front. -/
theorem Fifo.consumed {s' : Ustream} {w r : Bytes} {n : ℕ} (hw : t.s.sent ++ w = t.accepted)
    (hr : t.delivered ++ r = t.filled) (hqueues : Queues s' w (r.drop n)) (hsent : s'.sent = t.s.sent) :
    Fifo { t with s := s', delivered := t.delivered ++ r.take n } := by
  refine ⟨w, r.drop n, hqueues, by rw [hsent, hw], ?_⟩
  rw [List.append_assoc, List.take_append_drop, hr]

/-- **Each call** keeps the order of the bytes. -/
theorem step_fifo (h : Fifo t) (op : Op) : ∃ t', step accepts mallocs op t = some t' ∧ Fifo t' := by
  obtain ⟨w, r, hqueues, hw, hr⟩ := h
  cases op with
  | write data =>
    obtain ⟨n, s', hwrite, hwrote⟩ := write_wrote hqueues accepts mallocs data
    rw [step, hwrite, Option.bind_some]
    exact ⟨_, rfl, .wrote hw hr hwrote⟩
  | vprintf text =>
    obtain ⟨n, s', hwrite, hwrote⟩ := vprintf_wrote hqueues accepts mallocs text
    rw [step, hwrite, Option.bind_some]
    exact ⟨_, rfl, .wrote hw hr hwrote⟩
  | writePending =>
    obtain ⟨ok, s', w', hwrite, hqueues', hsent⟩ := writePending_spec hqueues accepts
    rw [step, hwrite, Option.bind_some]
    exact ⟨_, rfl, w', r, hqueues', hsent.trans hw, hr⟩
  | reserve len =>
    obtain ⟨room, s', hreserve, hqueues', hsent, -⟩ := reserve_spec hqueues mallocs len
    rw [step, hreserve, Option.bind_some]
    exact ⟨_, rfl, w, r, hqueues', by rw [hsent, hw], hr⟩
  | fetch len bs =>
    obtain ⟨room, s', hreserve, hqueues', hsent, hroom⟩ := reserve_spec hqueues mallocs len
    rw [step, hreserve, Option.bind_some]
    cases room with
    | none => exact ⟨_, rfl, w, r, hqueues', by rw [hsent, hw], hr⟩
    | some maxlen =>
      obtain ⟨l₁, s₂, hcopy, hfill, hqueues₂, hsent₂⟩ :=
        fillRead_spec hqueues' (hroom maxlen rfl) (List.length_take_le maxlen bs)
      dsimp only
      rw [hcopy, Option.bind_some, hfill, Option.bind_some]
      refine ⟨_, rfl, w, _, hqueues₂, by rw [hsent₂, hsent, hw], ?_⟩
      rw [← List.append_assoc, hr]
  | take n =>
    rw [step]
    rcases hqueues.getReadBuf with ⟨hget, rfl⟩ | ⟨chunk, hget, -, htake⟩
    · rw [hget]
      exact ⟨t, rfl, w, [], hqueues, hw, hr⟩
    · have hchunk : chunk.length ≤ r.length := by
        have hlen := congrArg List.length htake
        rw [List.length_take] at hlen
        omega
      obtain ⟨s', hconsume, hqueues', hsent⟩ := hqueues.consume ((min_le_right n _).trans hchunk)
      have hout : chunk.take n = r.take (min n chunk.length) := by
        rw [List.take_eq_take_min, take_of_take htake (min_le_right _ _)]
      rw [hget, Option.bind_some]
      dsimp only
      rw [hconsume, Option.bind_some, hout]
      exact ⟨_, rfl, .consumed hw hr hqueues' hsent⟩
  | drop n =>
    have hcontents := hqueues.read.contents.1
    have hcount := hqueues.read.2
    obtain ⟨s', hconsume, hqueues', hsent⟩ := @Queues.consume (min n t.s.r.dataBytes.toNat) _ _ _
      hqueues (by rw [hcount]; simp)
    rw [step, hconsume, Option.bind_some, hcontents]
    exact ⟨_, rfl, .consumed hw hr hqueues' hsent⟩
  | read n =>
    obtain ⟨k, s', hread, -, hqueues', hsent⟩ :=
      @readLoop_spec (n + 1) t.s w r n [] hqueues (Nat.zero_le _) (Nat.lt_succ_self _)
    rw [List.nil_append] at hread
    rw [step, ustreamRead, hread, Option.bind_some]
    exact ⟨_, rfl, .consumed hw hr hqueues' hsent⟩

theorem run_fifo (h : Fifo t) (ops : List Op) : ∃ t', run accepts mallocs ops t = some t' ∧ Fifo t' := by
  induction ops generalizing t with
  | nil => exact ⟨t, rfl, h⟩
  | cons op ops ih =>
    obtain ⟨t₁, hstep, h₁⟩ := step_fifo h op
    obtain ⟨t', hrun, h'⟩ := ih h₁
    exact ⟨t', by rw [run, hstep]; exact hrun, h'⟩

end

/-- **A stream is a queue in each direction.** In every run of calls, none of which fails, the bytes
    that `s->write` accepted and those still buffered are the ones that the calls reported, and the
    bytes that were delivered and those still buffered are the ones that were filled in. -/
theorem run_faithful (accepts : ℕ → ℕ) (mallocs : ℕ → Bool) (c : Config) (ops : List Op) :
    ∃ t, run accepts mallocs ops (initSession c) = some t ∧
      t.s.sent ++ t.s.w.contents = t.accepted ∧ t.s.w.dataBytes = t.s.w.contents.length ∧
      t.delivered ++ t.s.r.contents = t.filled ∧ t.s.r.dataBytes = t.s.r.contents.length := by
  obtain ⟨t, hrun, w, r, hqueues, hw, hr⟩ := run_fifo (fifo_init c) ops
  obtain ⟨hwc, hwl⟩ := hqueues.write.contents
  obtain ⟨hrc, hrl⟩ := hqueues.read.contents
  refine ⟨t, hrun, ?_, hwl, ?_, hrl⟩
  · rw [hwc]
    exact hw
  · rw [hrc]
    exact hr

end Ustream
