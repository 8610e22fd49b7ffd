import SupplyGraph.Proofs.Format.Bytes
import SupplyGraph.Service.Frame

/-!
Reading frames off a stream again and again. Every read takes one frame and nothing behind it. So of a stream that was
written frame by frame, and cut anywhere, all payloads that are there as a whole come back in their order, and nothing
else ever does.
-/

namespace SupplyGraph.Frame

/-- What reading a stream may come to. -/
inductive Reads : Bytes → Front → Prop
  | payload (header payload rest : Bytes) (complete : header.length = headerSize)
      (announced : Bytes.ofBigEndian header = payload.length) (fits : payload.length ≤ maxPayload) :
      Reads (header ++ payload ++ rest) (.payload payload rest)
  | ended (stream : Bytes) (short : stream.length < headerSize) : Reads stream (.ended [])
  | tooLarge (header rest : Bytes) (complete : header.length = headerSize)
      (large : maxPayload < Bytes.ofBigEndian header) :
      Reads (header ++ rest) (.faulty (.tooLarge (Bytes.ofBigEndian header)) rest)
  | cutOff (header front : Bytes) (complete : header.length = headerSize)
      (fits : Bytes.ofBigEndian header ≤ maxPayload) (short : front.length < Bytes.ofBigEndian header) :
      Reads (header ++ front) (.faulty .cutOff [])

section

variable {header rest : Bytes} (complete : header.length = headerSize)
include complete

theorem read_tooLarge (large : maxPayload < Bytes.ofBigEndian header) :
    read (header ++ rest) = .faulty (.tooLarge (Bytes.ofBigEndian header)) rest := by
  rw [read, Bytes.split?_append complete]
  exact if_pos large

theorem read_payload {payload : Bytes} (announced : Bytes.ofBigEndian header = payload.length)
    (fits : payload.length ≤ maxPayload) : read (header ++ payload ++ rest) = .payload payload rest := by
  rw [List.append_assoc, read, Bytes.split?_append complete]
  dsimp only
  rw [announced, if_neg (by omega), Bytes.split?_append rfl]

theorem read_cutOff (fits : Bytes.ofBigEndian header ≤ maxPayload) (short : rest.length < Bytes.ofBigEndian header) :
    read (header ++ rest) = .faulty .cutOff [] := by
  rw [read, Bytes.split?_append complete]
  dsimp only
  rw [if_neg (by omega), Bytes.split?_eq_none short]

end

theorem read_ended {stream : Bytes} (short : stream.length < headerSize) : read stream = .ended [] := by
  rw [read, Bytes.split?_eq_none short]

theorem Reads.eq {stream : Bytes} {front : Front} (reads : Reads stream front) : read stream = front := by
  cases reads with
  | payload header payload rest complete announced fits => exact read_payload complete announced fits
  | ended stream short => exact read_ended short
  | tooLarge header rest complete large => exact read_tooLarge complete large
  | cutOff header front complete fits short => exact read_cutOff complete fits short

theorem exists_reads (stream : Bytes) : ∃ front, Reads stream front := by
  by_cases short : stream.length < headerSize
  · exact ⟨_, .ended stream short⟩
  obtain ⟨header, body, rfl, complete⟩ : ∃ header body, stream = header ++ body ∧ header.length = headerSize :=
    ⟨stream.take headerSize, stream.drop headerSize, (List.take_append_drop ..).symm,
      List.length_take_of_le (by omega)⟩
  by_cases large : maxPayload < Bytes.ofBigEndian header
  · exact ⟨_, .tooLarge header body complete large⟩
  by_cases cut : body.length < Bytes.ofBigEndian header
  · exact ⟨_, .cutOff header body complete (by omega) cut⟩
  · have whole : (body.take (Bytes.ofBigEndian header)).length = Bytes.ofBigEndian header :=
      List.length_take_of_le (by omega)
    have reads := Reads.payload header (body.take (Bytes.ofBigEndian header)) (body.drop (Bytes.ofBigEndian header))
      complete whole.symm (by omega)
    rw [List.append_assoc, List.take_append_drop] at reads
    exact ⟨_, reads⟩

theorem reads_read (stream : Bytes) : Reads stream (read stream) := by
  obtain ⟨front, reads⟩ := exists_reads stream
  rwa [reads.eq]

def nth : Nat → Bytes → Front
  | 0, stream => read stream
  | k + 1, stream => nth k (read stream).rest

def Front.last : Option ReadFault → Front
  | none => .ended []
  | some fault => .faulty fault []

structure Gives (stream : Bytes) (payloads : List Bytes) (fault : Option ReadFault) : Prop where
  each : ∀ (k : Nat) payload, payloads[k]? = some payload → ∃ rest, nth k stream = .payload payload rest
  last : nth payloads.length stream = .last fault
  after : ∀ k, payloads.length < k → nth k stream = .ended []
  all : readAll stream = (payloads, fault)

theorem nth_nil (k : Nat) : nth k [] = .ended [] := by
  induction k with
  | zero => exact read_ended (by decide)
  | succ k ih => rw [nth, read_ended (by decide), Front.rest, ih]

theorem readAll_payload {stream rest payload : Bytes} (front : read stream = .payload payload rest) :
    readAll stream = (payload :: (readAll rest).1, (readAll rest).2) := by
  rw [readAll]
  split
  case h_1 other left read =>
    cases front.symm.trans read
    rfl
  case h_2 read => cases front.symm.trans read
  case h_3 read => cases front.symm.trans read

theorem readAll_stop {stream : Bytes} {fault : Option ReadFault} (front : read stream = .last fault) :
    readAll stream = ([], fault) := by
  rw [readAll]
  cases fault <;> split <;> rename_i read <;> cases front.symm.trans read <;> rfl

theorem Gives.stop {stream : Bytes} {fault : Option ReadFault} (stops : Reads stream (.last fault)) :
    Gives stream [] fault := by
  have rest : (read stream).rest = [] := by rw [stops.eq]; cases fault <;> rfl
  constructor
  case each => simp
  case last => exact stops.eq
  case after =>
    intro k later
    cases k with
    | zero => cases later
    | succ k => rw [nth, rest, nth_nil]
  case all => exact readAll_stop stops.eq

theorem Gives.cons {stream rest payload : Bytes} {payloads : List Bytes} {fault : Option ReadFault}
    (reads : Reads stream (.payload payload rest)) (gives : Gives rest payloads fault) :
    Gives stream (payload :: payloads) fault := by
  have later (k : Nat) : nth (k + 1) stream = nth k rest := by rw [nth, reads.eq, Front.rest]
  constructor
  case each =>
    intro k other listed
    cases k with
    | zero =>
        obtain rfl := Option.some.inj listed
        exact ⟨rest, reads.eq⟩
    | succ k =>
        rw [later]
        exact gives.each k other listed
  case last =>
    rw [List.length_cons, later]
    exact gives.last
  case after =>
    intro k behind
    cases k with
    | zero => cases behind
    | succ k =>
        rw [later]
        exact gives.after k (Nat.lt_of_succ_lt_succ behind)
  case all => rw [readAll_payload reads.eq, gives.all]

/-- The first `count` frames are in the stream as a whole, and no more of the next one than is left over. -/
structure CutAt (frames : List Bytes) (count : Nat) (left stream : Bytes) : Prop where
  whole : count ≤ frames.length
  split : stream = (frames.take count).flatten ++ left
  cut : ∀ frame, frames[count]? = some frame → left.length < frame.length

theorem CutAt.cons {frames : List Bytes} {count : Nat} {left stream : Bytes} (place : CutAt frames count left stream)
    (frame : Bytes) : CutAt (frame :: frames) (count + 1) left (frame ++ stream) where
  whole := Nat.succ_le_succ place.whole
  split := by rw [List.take_succ_cons, List.flatten_cons, List.append_assoc, ← place.split]
  cut := place.cut

def framed (payload : Bytes) : Bytes := Bytes.bigEndian headerSize payload.length ++ payload

@[simp] theorem length_framed (payload : Bytes) : (framed payload).length = headerSize + payload.length := by
  rw [framed, List.length_append, Bytes.length_bigEndian]

theorem mapM_write? {payloads : List Bytes} (fit : ∀ payload ∈ payloads, payload.length ≤ maxPayload) :
    payloads.mapM write? = some (payloads.map framed) := by
  induction payloads with
  | nil => rfl
  | cons payload payloads ih =>
      obtain ⟨fits, fit⟩ := List.forall_mem_cons.mp fit
      have written : write? payload = some (framed payload) := if_pos (Nat.le_trans fits (by decide))
      rw [List.mapM_cons, written, ih fit]
      rfl

theorem ofBigEndian_header {payload : Bytes} (fits : payload.length ≤ maxPayload) :
    Bytes.ofBigEndian (Bytes.bigEndian headerSize payload.length) = payload.length :=
  Bytes.ofBigEndian_of_lt (Nat.lt_of_le_of_lt fits (by decide))

theorem reads_framed {payload : Bytes} (fits : payload.length ≤ maxPayload) (rest : Bytes) :
    Reads (framed payload ++ rest) (.payload payload rest) :=
  .payload _ payload rest (Bytes.length_bigEndian ..) (ofBigEndian_header fits) fits

theorem reads_part {payload stream : Bytes} (fits : payload.length ≤ maxPayload) (part : stream <+: framed payload)
    (short : stream.length < (framed payload).length) :
    Reads stream (.last (if stream.length < headerSize then none else some .cutOff)) := by
  by_cases headless : stream.length < headerSize
  · rw [if_pos headless]
    exact .ended stream headless
  · rw [if_neg headless]
    have complete : (Bytes.bigEndian headerSize payload.length).length = headerSize := Bytes.length_bigEndian ..
    obtain ⟨front, rfl⟩ : Bytes.bigEndian headerSize payload.length <+: stream :=
      List.prefix_of_prefix_length_le (List.prefix_append ..) part (by omega)
    rw [List.length_append, complete, length_framed] at short
    refine .cutOff _ front complete ?_ ?_ <;> rw [ofBigEndian_header fits]
    · exact fits
    · omega

theorem gives_of_prefix {payloads : List Bytes} (fit : ∀ payload ∈ payloads, payload.length ≤ maxPayload)
    {stream : Bytes} (cut : stream <+: (payloads.map framed).flatten) :
    ∃ count left, CutAt (payloads.map framed) count left stream ∧
      Gives stream (payloads.take count) (if left.length < headerSize then none else some .cutOff) := by
  -- Either the stream ends in the first frame, or that frame is read off it.
  induction payloads generalizing stream with
  | nil =>
      obtain rfl := List.prefix_nil.mp cut
      exact ⟨0, [], ⟨Nat.le_refl _, rfl, nofun⟩, Gives.stop (.ended [] (by decide))⟩
  | cons payload payloads ih =>
      obtain ⟨fits, fit⟩ := List.forall_mem_cons.mp fit
      rw [List.map_cons, List.flatten_cons] at cut
      by_cases short : stream.length < (framed payload).length
      · have part : stream <+: framed payload :=
          List.prefix_of_prefix_length_le cut (List.prefix_append ..) (Nat.le_of_lt short)
        refine ⟨0, stream, ⟨Nat.zero_le _, rfl, ?_⟩, Gives.stop (reads_part fits part short)⟩
        rintro frame ⟨⟩
        exact short
      · obtain ⟨stream, rfl⟩ : framed payload <+: stream :=
          List.prefix_of_prefix_length_le (List.prefix_append ..) cut (Nat.le_of_not_lt short)
        obtain ⟨count, left, place, gives⟩ := ih fit ((List.prefix_append_right_inj _).mp cut)
        exact ⟨count + 1, left, place.cons _, .cons (reads_framed fits stream) gives⟩

/-- A stream that was written frame by frame gives back, wherever it is cut, exactly the payloads whose frames are there
as a whole, in their order; then its end if fewer bytes are left than a length has, and a cut off payload otherwise; and
no payload after that. Of any stream at all a read takes its own frame only, and no frame that announces too much. -/
theorem reads_every_prefix :
    (∀ payloads : List Bytes, (∀ payload ∈ payloads, payload.length ≤ maxPayload) →
      ∃ frames, payloads.mapM write? = some frames ∧ ∀ stream, stream <+: frames.flatten →
        ∃ count left, CutAt frames count left stream ∧
          Gives stream (payloads.take count) (if left.length < headerSize then none else some .cutOff)) ∧
    (∀ stream, Reads stream (read stream)) ∧
    ∀ header rest : Bytes, header.length = headerSize → maxPayload < Bytes.ofBigEndian header →
      read (header ++ rest) = .faulty (.tooLarge (Bytes.ofBigEndian header)) rest := by
  refine ⟨?_, reads_read, fun header rest complete => read_tooLarge complete⟩
  intro payloads fit
  exact ⟨_, mapM_write? fit, fun stream cut => gives_of_prefix fit cut⟩

theorem reads_every_prefix_cut : ∃ frames, [[1, 2, 3], [], [9]].mapM write? = some frames ∧
    [0, 0, 0, 3, 1, 2, 3, 0, 0, 0, 0, 0, 0, 0, 1] <+: frames.flatten ∧
    ∃ count left, CutAt frames count left [0, 0, 0, 3, 1, 2, 3, 0, 0, 0, 0, 0, 0, 0, 1] ∧
      Gives [0, 0, 0, 3, 1, 2, 3, 0, 0, 0, 0, 0, 0, 0, 1] ([[1, 2, 3], [], [9]].take count)
        (if left.length < headerSize then none else some .cutOff) := by
  have fit : ∀ payload ∈ ([[1, 2, 3], [], [9]] : List Bytes), payload.length ≤ maxPayload := by decide
  obtain ⟨frames, written, gives⟩ := reads_every_prefix.1 _ fit
  have inside : [0, 0, 0, 3, 1, 2, 3, 0, 0, 0, 0, 0, 0, 0, 1] <+: frames.flatten := by
    obtain rfl := Option.some.inj ((mapM_write? fit).symm.trans written)
    decide
  exact ⟨frames, written, inside, gives _ inside⟩

end SupplyGraph.Frame
