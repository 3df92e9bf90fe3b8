import AlphaMiner.Model.HttpReply

/-!
# The body of a reply

Whatever the growth policy makes of a length that the server has announced, it ends
with at least as much as is needed (`newalloc_ge`), and that is all the copies rely
on: a block is only ever replaced by a larger one, which keeps what is in it. The
sizes are exact as long as the body stays far below `2 ^ 64` bytes.
-/

namespace AlphaMiner

open Lib

/-- The block begins with these bytes and a terminator, and `allocated` is its size. -/
def DataBuffer.Holds (db : DataBuffer) (received : Bytes) : Prop :=
  ∃ behind, db.buf = some (received ++ 0 :: behind) ∧ db.len.toNat = received.length ∧
    db.allocated.toNat = (received ++ 0 :: behind).length

/-- Between two calls. Before the first chunk is accepted there is no block. -/
def DataBuffer.Ready (db : DataBuffer) (received : Bytes) : Prop :=
  (db = Body.start.db ∧ received = []) ∨ db.Holds received

theorem DataBuffer.Ready.block {db : DataBuffer} {received : Bytes} (h : db.Ready received) :
    db.len.toNat = received.length ∧ (db.buf.getD []).length = db.allocated.toNat ∧
      (db.buf.getD []).take received.length = received := by
  rcases h with ⟨rfl, rfl⟩ | ⟨behind, hbuf, hlen, hsize⟩
  · exact ⟨rfl, rfl, rfl⟩
  · rw [hbuf, Option.getD_some]
    exact ⟨hlen, hsize.symm, List.take_left⟩

/-! ## Growing -/

/-- There is room for what is asked, under every announced length. -/
theorem newalloc_ge (db : DataBuffer) (headers : HeaderInfo) (reqalloc : UInt64) :
    reqalloc ≤ allDataCb.newalloc db headers reqalloc := by
  have hraise : ∀ n : UInt64, reqalloc ≤ if reqalloc > n then reqalloc else n := by
    intro n
    split
    · exact UInt64.le_refl _
    · next h => exact UInt64.not_lt.mp h
  exact hraise _

/-! ## One call -/

section

variable {db : DataBuffer} {received : Bytes} {chunk : Delivery}

theorem Delivery.toNat_len (hsmall : chunk.ptr.length < 2 ^ 62) :
    (chunk.size * chunk.nmemb).toNat = chunk.ptr.length := by
  rw [UInt64.toNat_mul, ← chunk.length_ptr]
  omega

/-- With enough room the chunk and a terminator go behind what is there. -/
theorem allDataCb.append_holds (hsmall : received.length + chunk.ptr.length < 2 ^ 62)
    (hlen : db.len.toNat = received.length)
    (hblock : (db.buf.getD []).length = db.allocated.toNat)
    (hfront : (db.buf.getD []).take received.length = received)
    (hroom : received.length + chunk.ptr.length + 1 ≤ db.allocated.toNat) :
    ∃ ret db', allDataCb.append db chunk = some (ret, db') ∧ ret.toNat = chunk.ptr.length ∧
      db'.Holds (received ++ chunk.ptr) := by
  have hsize := chunk.toNat_len (by omega)
  have hnew : slice? chunk.ptr 0 chunk.ptr.length = some chunk.ptr := by
    rw [slice?, if_pos (by omega), slice, List.drop_zero, List.take_length]
  generalize hm : db.buf.getD [] = m at *
  have hstored : (store m received.length chunk.ptr).length = m.length := length_store (by omega)
  refine ⟨_, { db with
    buf := some (store (store m received.length chunk.ptr)
      (received.length + chunk.ptr.length) [0])
    len := db.len + chunk.size * chunk.nmemb }, ?_, hsize, ?_⟩
  · simp only [allDataCb.append, hsize, hlen, hnew, hm, store?, Option.bind_eq_bind,
      Option.bind_some]
    rw [if_pos (by omega), Option.bind_some, if_pos (by simp [hstored]; omega), Option.bind_some]
  · refine ⟨m.drop (received.length + chunk.ptr.length + 1), ?_, ?_, ?_⟩
    · rw [store_append rfl (by omega), store, hfront]
      simp [Nat.add_assoc]
    · show (db.len + chunk.size * chunk.nmemb).toNat = _
      rw [UInt64.toNat_add, hlen, hsize, List.length_append]
      omega
    · show db.allocated.toNat = _
      simp
      omega

theorem allDataCb_ready (h : db.Ready received)
    (hsmall : received.length + chunk.ptr.length < 2 ^ 62) (headers : HeaderInfo)
    (memory : Realloc) :
    ∃ ret db', allDataCb db headers memory chunk = some (ret, db') ∧
      ((ret.toNat = chunk.ptr.length ∧ db'.Holds (received ++ chunk.ptr)) ∨
        (ret = 0 ∧ db' = db)) := by
  obtain ⟨hlen, hblock, hfront⟩ := h.block
  have hreq : (db.len + chunk.size * chunk.nmemb + 1).toNat =
      received.length + chunk.ptr.length + 1 := by
    rw [UInt64.toNat_add, UInt64.toNat_add, hlen, chunk.toNat_len (by omega)]
    simp
    omega
  rw [allDataCb]
  simp only
  by_cases hgrow : db.len + chunk.size * chunk.nmemb + 1 > db.allocated
  · rw [if_pos hgrow]
    have hlt := UInt64.lt_iff_toNat_lt.mp hgrow
    cases memory with
    | none => exact ⟨_, _, rfl, .inr ⟨rfl, rfl⟩⟩
    | some heap =>
        have hge := UInt64.le_iff_toNat_le.mp
          (newalloc_ge db headers (db.len + chunk.size * chunk.nmemb + 1))
        generalize allDataCb.newalloc db headers _ = newalloc at hge
        have hkept : received.length ≤ (db.buf.getD []).length := by
          rw [← hfront, List.length_take]
          omega
        let grown : DataBuffer :=
          { db with
            buf := some (realloc heap (db.buf.getD []) newalloc.toNat)
            allocated := newalloc }
        have hsize : (grown.buf.getD []).length = grown.allocated.toNat :=
          length_realloc heap _ _
        have hroom : received.length + chunk.ptr.length + 1 ≤ grown.allocated.toNat := by
          show _ ≤ newalloc.toNat
          omega
        obtain ⟨ret, db', hrun, hdone⟩ := @allDataCb.append_holds grown received chunk hsmall hlen
          hsize ((take_realloc (by omega) hkept).trans hfront) hroom
        exact ⟨ret, db', hrun, .inl hdone⟩
  · rw [if_neg hgrow]
    have hge := UInt64.le_iff_toNat_le.mp (UInt64.not_lt.mp hgrow)
    obtain ⟨ret, db', hrun, hdone⟩ :=
      allDataCb.append_holds hsmall hlen hblock hfront (by omega)
    exact ⟨ret, db', hrun, .inl hdone⟩

end

/-! ## All calls of a request -/

def delivered (calls : List BodyCall) : Nat := (calls.map fun c => c.chunk.ptr.length).sum

theorem Body.receive_ready {b : Body} (h : b.db.Ready b.accepted.flatten) {c : BodyCall}
    (hsmall : b.accepted.flatten.length + c.chunk.ptr.length < 2 ^ 62) :
    ∃ b', b.receive c = some b' ∧ b'.db.Ready b'.accepted.flatten ∧
      b'.accepted.flatten.length ≤ b.accepted.flatten.length + c.chunk.ptr.length := by
  obtain ⟨ret, db', hrun, hdone⟩ := allDataCb_ready h hsmall c.headers c.memory
  refine ⟨_, by rw [Body.receive, hrun]; rfl, ?_⟩
  rcases hdone with ⟨hret, hholds⟩ | ⟨rfl, rfl⟩
  · simp only [hret, if_true, List.flatten_append, List.flatten_singleton, List.length_append]
    exact ⟨.inr hholds, Nat.le_refl _⟩
  · by_cases hempty : (0 : UInt64).toNat = c.chunk.ptr.length
    · have hnil : c.chunk.ptr = [] := List.length_eq_zero_iff.mp hempty.symm
      simp only [hempty, if_true, hnil, List.flatten_append, List.flatten_singleton,
        List.append_nil]
      exact ⟨h, by simp⟩
    · simp only [if_neg hempty]
      exact ⟨h, Nat.le_add_right _ _⟩

theorem Body.receive_all {calls : List BodyCall} : ∀ {b : Body},
    b.db.Ready b.accepted.flatten → b.accepted.flatten.length + delivered calls < 2 ^ 62 →
    ∃ b', calls.foldlM Body.receive b = some b' ∧ b'.db.Ready b'.accepted.flatten ∧
      b'.accepted.flatten.length ≤ b.accepted.flatten.length + delivered calls := by
  induction calls with
  | nil => exact fun h _ => ⟨_, rfl, h, Nat.le_refl _⟩
  | cons c calls ih =>
      intro b h hsmall
      have hcons : delivered (c :: calls) = c.chunk.ptr.length + delivered calls := rfl
      obtain ⟨b', hstep, hready, hle⟩ := Body.receive_ready h (c := c) (by omega)
      obtain ⟨b'', hrun, hready', hle'⟩ := ih hready (by omega)
      exact ⟨b'', by rw [List.foldlM_cons, hstep]; exact hrun, hready', by omega⟩

/-- After every call the buffer is what was received, or the call has failed and
nothing has changed. -/
theorem allDataCb_received {calls : List BodyCall} {c : BodyCall}
    (hsize : delivered (calls ++ [c]) < 2 ^ 62) :
    ∃ b ret db', calls.foldlM Body.receive Body.start = some b ∧
      allDataCb b.db c.headers c.memory c.chunk = some (ret, db') ∧
      ((ret.toNat = c.chunk.ptr.length ∧ ∃ buf, db'.buf = some buf ∧
          buf.length = db'.allocated.toNat ∧
          buf.take db'.len.toNat = b.accepted.flatten ++ c.chunk.ptr ∧
          buf[db'.len.toNat]? = some 0 ∧ db'.len < db'.allocated) ∨
        (ret = 0 ∧ db' = b.db)) := by
  have hsplit : delivered (calls ++ [c]) = delivered calls + c.chunk.ptr.length := by
    simp [delivered]
  obtain ⟨b, hrun, hready, hle⟩ := @Body.receive_all calls Body.start
    (.inl ⟨rfl, rfl⟩) (by simp [Body.start]; omega)
  have hsmall : b.accepted.flatten.length + c.chunk.ptr.length < 2 ^ 62 := by
    rw [show Body.start.accepted.flatten.length = 0 from rfl] at hle
    omega
  obtain ⟨ret, db', hcall, hdone⟩ := allDataCb_ready hready hsmall c.headers c.memory
  refine ⟨b, ret, db', hrun, hcall, hdone.imp_left fun h => ?_⟩
  obtain ⟨hret, behind, hbuf, hlen, halloc⟩ := h
  refine ⟨hret, _, hbuf, halloc.symm, ?_, ?_, ?_⟩
  · rw [hlen, List.take_left]
  · rw [hlen, List.getElem?_append_right (Nat.le_refl _), Nat.sub_self]
    rfl
  · rw [UInt64.lt_iff_toNat_lt, hlen, halloc]
    simp

def sampleDelivery : Delivery := ⟨[123, 125], 1, 2, rfl⟩

/-- There is no memory at first, and then a length is announced that wraps to zero. -/
theorem allDataCb_received_sample :
    delivered ([⟨sampleDelivery, .start, none⟩] ++
      [⟨sampleDelivery, { HeaderInfo.start with contentLength := -1 }, some fun _ => 7⟩]) < 2 ^ 62 ∧
    ∃ b ret db',
      [⟨sampleDelivery, .start, none⟩].foldlM Body.receive Body.start = some b ∧
      allDataCb b.db { HeaderInfo.start with contentLength := -1 } (some fun _ => 7)
        sampleDelivery = some (ret, db') ∧
      ((ret.toNat = 2 ∧ ∃ buf, db'.buf = some buf ∧
          buf.length = db'.allocated.toNat ∧
          buf.take db'.len.toNat = b.accepted.flatten ++ [123, 125] ∧
          buf[db'.len.toNat]? = some 0 ∧ db'.len < db'.allocated) ∨
        (ret = 0 ∧ db' = b.db)) :=
  ⟨by decide, @allDataCb_received [⟨sampleDelivery, .start, none⟩]
    ⟨sampleDelivery, { HeaderInfo.start with contentLength := -1 }, some fun _ => 7⟩ (by decide)⟩

end AlphaMiner
