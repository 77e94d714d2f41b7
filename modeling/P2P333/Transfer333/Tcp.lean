import P2P333.Transfer333.Codec.Wire

/-!
# The read side of a TCP session

`encode_tcp_frame`, `read_tcp_frame` and the loop of `spawn_reader` in `333-transfer/src/tcp.rs`. A
frame is a length of four bytes and a body; each is read by one `read_exact`, which gives up when
the socket has nothing for the length of the read timeout. The loop takes a timeout for a harmless
pause and starts at a new frame, but the bytes that the failed `read_exact` had got are gone.

The socket is a list of arrivals, and reading it byte by byte gives the same results (`items`). The
stop flag is left out: the reader is not told to stop before the stream ends.

Results:
1. `turn_items`: how the bytes are cut into chunks does not matter to the loop.
2. `delivers_of_aligned`: if every timeout falls between two frames, all messages are delivered.
3. `aligned_of_delivers`: bytes that are lost are missing in the end, so there is no other way.
4. `delivers_iff`: both, for the loop on the socket.
-/

namespace P2P333.Transfer333

open Lib Function

/-! ## Definitions -/

/-- The kinds of errors of a socket that are told apart. -/
inductive IoErrorKind where
  | wouldBlock
  | timedOut
  | unexpectedEof
  | invalidData
deriving DecidableEq

/-- What one `read` can find on the socket: at least one byte, or none before the timeout. -/
inductive Arrival where
  | chunk (b : UInt8) (more : Bytes)
  | timeout
deriving DecidableEq

/-- A reader, with what its `read_exact` of so many bytes leaves. -/
class Read (σ : Type) where
  readExact : Nat → σ → Except IoErrorKind Bytes × σ

namespace Arrival

/-- One `read` into a buffer of `n` bytes; no bytes at the end of the stream. -/
def read (n : Nat) : List Arrival → Except IoErrorKind Bytes × List Arrival
  | [] => (.ok [], [])
  | .timeout :: rest => (.error .wouldBlock, rest)
  | .chunk b more :: rest =>
    (.ok ((b :: more).take n),
      match (b :: more).drop n with
      | [] => rest
      | c :: cs => .chunk c cs :: rest)

/-- The loop of `read_exact`. Every `read` gets a byte, so `n` of them are enough. -/
def readExactLoop : Nat → Nat → List Arrival → Except IoErrorKind Bytes × List Arrival
  | fuel + 1, n + 1, s =>
    match read (n + 1) s with
    | (.error e, s) => (.error e, s)
    | (.ok [], s) => (.error .unexpectedEof, s)
    | (.ok (b :: bs), s) =>
      match readExactLoop fuel (n - bs.length) s with
      | (.error e, s) => (.error e, s)
      | (.ok more, s) => (.ok (b :: (bs ++ more)), s)
  | _, _, s => (.ok [], s)

end Arrival

instance : Read (List Arrival) := ⟨fun n => Arrival.readExactLoop n n⟩

/-- The same stream byte by byte; `none` is a timeout. -/
abbrev Items := List (Option UInt8)

def Items.readExact : Nat → Items → Except IoErrorKind Bytes × Items
  | 0, s => (.ok [], s)
  | _ + 1, [] => (.error .unexpectedEof, [])
  | _ + 1, none :: s => (.error .wouldBlock, s)
  | n + 1, some b :: s =>
    match Items.readExact n s with
    | (.error e, s) => (.error e, s)
    | (.ok bs, s) => (.ok (b :: bs), s)

instance : Read Items := ⟨Items.readExact⟩

def Arrival.items : Arrival → Items
  | .chunk b more => some b :: more.map some
  | .timeout => [none]

def items (s : List Arrival) : Items := s.flatMap Arrival.items

def maxFrame : Nat := 16 * 1024 * 1024

section Reader

variable [KeyFormat]

def encodeTcpFrame (msg : AuthorityMsg) : Bytes :=
  let body := encodeAuthorityMsg msg
  beBytes 4 body.length ++ body

def readTcpFrame {σ : Type} [Read σ] (stream : σ) : Except IoErrorKind AuthorityMsg × σ :=
  match Read.readExact 4 stream with
  | (.error e, stream) => (.error e, stream)
  | (.ok lenBuf, stream) =>
    let bodyLen := ofBeBytes lenBuf
    if bodyLen > maxFrame then (.error .invalidData, stream)
    else
      match Read.readExact bodyLen stream with
      | (.error e, stream) => (.error e, stream)
      | (.ok body, stream) =>
        match decodeAuthorityMsg body with
        | .error _ => (.error .invalidData, stream)
        | .ok msg => (.ok msg, stream)

/-- The reader thread: its half of the stream, what it has pushed to the inbox, and the flag that it
shares with the send path. -/
structure Session (σ : Type) where
  stream : σ
  inbox : List AuthorityMsg
  alive : Bool

/-- One turn of the loop; it ends when the flag is cleared. -/
def Session.turn {σ : Type} [Read σ] (s : Session σ) : Session σ :=
  if s.alive then
    match readTcpFrame s.stream with
    | (.ok msg, stream) => { s with stream, inbox := s.inbox ++ [msg] }
    | (.error e, stream) =>
      if e = .wouldBlock ∨ e = .timedOut then { s with stream }
      else { s with stream, alive := false }
  else s

/-- The bytes of the stream. -/
def Items.bytes (s : Items) : Bytes := s.filterMap id

/-- Every timeout falls between two frames. -/
def Aligned (frames : List Bytes) (s : Items) : Prop :=
  ∀ pre post, s = pre ++ none :: post → ∃ k, Items.bytes pre = (frames.take k).flatten

end Reader

/-! ## Reading byte by byte -/

@[simp] theorem bytes_append (s t : Items) : Items.bytes (s ++ t) = Items.bytes s ++
    Items.bytes t :=
  List.filterMap_append

@[simp] theorem bytes_map_some (bs : Bytes) : Items.bytes (bs.map some) = bs := by
  simp [Items.bytes]

@[simp] theorem bytes_none_cons (s : Items) : Items.bytes (none :: s) = Items.bytes s := rfl

theorem readExact_map_some (bs : Bytes) (l : Items) :
    Items.readExact bs.length (bs.map some ++ l) = (.ok bs, l) := by
  induction bs with
  | nil => rfl
  | cons b bs ih =>
    simp only [List.length_cons, List.map_cons, List.cons_append, Items.readExact, ih]

theorem readExact_of_le {bs : Bytes} {n : Nat} (h : n ≤ bs.length) (l : Items) :
    Items.readExact n (bs.map some ++ l) = (.ok (bs.take n), (bs.drop n).map some ++ l) := by
  have := readExact_map_some (bs.take n) ((bs.drop n).map some ++ l)
  rwa [List.length_take_of_le h, ← List.append_assoc, ← List.map_append, List.take_append_drop]
    at this

theorem readExact_of_ge {bs : Bytes} {n : Nat} (h : bs.length ≤ n) (l : Items) :
    Items.readExact n (bs.map some ++ l) =
      match Items.readExact (n - bs.length) l with
      | (.error e, l) => (.error e, l)
      | (.ok more, l) => (.ok (bs ++ more), l) := by
  induction bs generalizing n with
  | nil =>
    rw [List.map_nil, List.nil_append, List.length_nil, Nat.sub_zero]
    cases Items.readExact n l with
    | mk r l' => cases r <;> rfl
  | cons b bs ih =>
    obtain ⟨n, rfl⟩ : ∃ k, n = k + 1 := ⟨n - 1, by rw [List.length_cons] at h; omega⟩
    rw [List.length_cons, Nat.add_le_add_iff_right] at h
    rw [List.map_cons, List.cons_append, Items.readExact, ih h, List.length_cons,
      Nat.add_sub_add_right]
    cases Items.readExact (n - bs.length) l with
    | mk r l' => cases r <;> rfl

/-! ## Chunks -/

@[simp] theorem items_chunk (b : UInt8) (more : Bytes) (s : List Arrival) :
    items (.chunk b more :: s) = (b :: more).map some ++ items s := rfl

@[simp] theorem items_timeout (s : List Arrival) : items (.timeout :: s) = none :: items s := rfl

theorem items_eq_nil {s : List Arrival} (h : items s = []) : s = [] := by
  cases s with
  | nil => rfl
  | cons a s => cases a <;> cases h

/-- `read_exact` does not see how the bytes were cut into chunks. -/
theorem readExactLoop_items {fuel n : Nat} (h : n ≤ fuel) (s : List Arrival) :
    Prod.map id items (Arrival.readExactLoop fuel n s) = Items.readExact n (items s) := by
  induction fuel generalizing n s with
  | zero =>
    obtain rfl := Nat.le_zero.mp h
    rfl
  | succ fuel ih =>
    cases n with
    | zero => rfl
    | succ n =>
      cases s with
      | nil => rfl
      | cons a s =>
        cases a with
        | timeout => rfl
        | chunk b more =>
          rw [Arrival.readExactLoop, Arrival.read, items_chunk]
          dsimp only [List.take_succ_cons, List.drop_succ_cons]
          by_cases hle : more.length ≤ n
          · rw [List.take_of_length_le hle, List.drop_succ_cons, List.drop_of_length_le hle,
              readExact_of_ge (by rw [List.length_cons]; omega), List.length_cons,
              Nat.add_sub_add_right, ← ih (by omega) s]
            dsimp only
            cases Arrival.readExactLoop fuel (n - more.length) s with
            | mk r s' => cases r <;> rfl
          · have hn : n ≤ more.length := by omega
            rw [List.length_take_of_le hn, Nat.sub_self,
              readExact_of_le (by rw [List.length_cons]; omega), List.take_succ_cons,
              List.drop_succ_cons]
            obtain ⟨c, cs, hdrop⟩ : ∃ c cs, more.drop n = c :: cs := by
              cases hd : more.drop n with
              | nil => exact absurd (List.drop_eq_nil_iff.mp hd) hle
              | cons c cs => exact ⟨c, cs, rfl⟩
            rw [hdrop]
            cases fuel <;> simp [Arrival.readExactLoop]

/-- Bytes that were read are those at the front; a timeout comes behind the bytes that are lost. -/
theorem readExact_spec {n : Nat} {s l : Items} {r : Except IoErrorKind Bytes}
    (h : Items.readExact n s = (r, l)) :
    match r with
    | .ok bs => bs.length = n ∧ s = bs.map some ++ l
    | .error e => (e = .wouldBlock ∧ ∃ bs : Bytes, s = bs.map some ++ none :: l) ∨
        e = .unexpectedEof := by
  induction n generalizing s l r with
  | zero =>
    cases h
    exact ⟨rfl, rfl⟩
  | succ n ih =>
    cases s with
    | nil =>
      cases h
      exact .inr rfl
    | cons item s =>
      cases item with
      | none =>
        cases h
        exact .inl ⟨rfl, [], rfl⟩
      | some b =>
        rw [Items.readExact] at h
        cases hrest : Items.readExact n s with
        | mk r' l' =>
          rw [hrest] at h
          have hspec := ih hrest
          cases r' with
          | error e =>
            cases h
            rcases hspec with ⟨rfl, bs, rfl⟩ | rfl
            · exact .inl ⟨rfl, b :: bs, rfl⟩
            · exact .inr rfl
          | ok bs =>
            cases h
            obtain ⟨hlen, rfl⟩ := hspec
            exact ⟨congrArg (· + 1) hlen, rfl⟩

/-- Without a timeout in the way, the first bytes are at the front. -/
theorem exists_front {f g : Bytes} {s : Items} (hbytes : Items.bytes s = f ++ g)
    (hclear : ∀ pre post, s = pre ++ none :: post → f.length ≤ (Items.bytes pre).length) :
    ∃ l, s = f.map some ++ l := by
  induction f generalizing s with
  | nil => exact ⟨s, rfl⟩
  | cons b f ih =>
    cases s with
    | nil => cases hbytes
    | cons item s =>
      cases item with
      | none =>
        have := hclear [] s rfl
        cases this
      | some c =>
        have hcons : c :: Items.bytes s = b :: (f ++ g) := hbytes
        obtain ⟨rfl, hrest⟩ := List.cons.inj hcons
        obtain ⟨l, rfl⟩ := ih hrest (fun pre post hs => by
          have := hclear (some c :: pre) post (by rw [hs]; rfl)
          exact Nat.le_of_succ_le_succ this)
        exact ⟨l, rfl⟩

theorem encodeTcpFrame_ne_nil (m : AuthorityMsg) : encodeTcpFrame m ≠ [] := by
  intro h
  have := congrArg List.length h
  rw [encodeTcpFrame, List.length_append, length_beBytes, List.length_nil] at this
  omega

theorem aligned_nil : Aligned [] [] := by
  intro pre post hs
  exact absurd hs (by simp)

theorem Aligned.timeout {frames : List Bytes} {l : Items} (h : Aligned frames l) :
    Aligned frames (none :: l) := by
  intro pre post hs
  cases pre with
  | nil => exact ⟨0, rfl⟩
  | cons item pre =>
    cases hs
    exact h pre post rfl

theorem Aligned.cons {frames : List Bytes} {l : Items} (h : Aligned frames l) (f : Bytes) :
    Aligned (f :: frames) (f.map some ++ l) := by
  intro pre post hs
  rcases List.append_eq_append_iff.mp hs with ⟨mid, rfl, hl⟩ | ⟨mid, hf, hmid⟩
  · obtain ⟨k, hk⟩ := h mid post hl
    refine ⟨k + 1, ?_⟩
    rw [bytes_append, bytes_map_some, hk, List.take_succ_cons, List.flatten_cons]
  · cases mid with
    | nil =>
      refine ⟨1, ?_⟩
      rw [List.append_nil] at hf
      rw [← hf, bytes_map_some]
      simp
    | cons item mid =>
      cases hmid
      have hmem : none ∈ f.map some := by
        rw [hf]
        simp
      obtain ⟨b, -, hb⟩ := List.mem_map.mp hmem
      cases hb

theorem Aligned.tail {f : Bytes} {frames : List Bytes} {l : Items} (hne : f ≠ [])
    (h : Aligned (f :: frames) (f.map some ++ l)) : Aligned frames l := by
  intro pre post hl
  obtain ⟨k, hk⟩ := h (f.map some ++ pre) post (by rw [hl, List.append_assoc])
  rw [bytes_append, bytes_map_some] at hk
  cases k with
  | zero => exact absurd (List.append_eq_nil_iff.mp hk).1 hne
  | succ k =>
    rw [List.take_succ_cons, List.flatten_cons] at hk
    exact ⟨k, List.append_cancel_left hk⟩

/-- How many bytes the frames of these messages take. -/
def frameBytes (msgs : List AuthorityMsg) : Nat := ((msgs.map encodeTcpFrame).flatten).length

theorem frameBytes_cons (m : AuthorityMsg) (msgs : List AuthorityMsg) :
    frameBytes (m :: msgs) = (encodeTcpFrame m).length + frameBytes msgs := by
  rw [frameBytes, List.map_cons, List.flatten_cons, List.length_append]
  rfl

/-! ## One frame -/

section Frames

variable [KeyFormat]

theorem readTcpFrame_encode {m : AuthorityMsg} (hfits : m.Fits)
    (hlen : (encodeAuthorityMsg m).length ≤ maxFrame) (l : Items) :
    readTcpFrame ((encodeTcpFrame m).map some ++ l) = (.ok m, l) := by
  have hbe : ofBeBytes (beBytes 4 (encodeAuthorityMsg m).length) = (encodeAuthorityMsg m).length :=
    ofBeBytes_beBytes (Nat.lt_of_le_of_lt hlen (by decide))
  have hhead : Read.readExact 4 ((encodeTcpFrame m).map some ++ l) =
      (.ok (beBytes 4 (encodeAuthorityMsg m).length), (encodeAuthorityMsg m).map some ++ l) := by
    have := readExact_map_some (beBytes 4 (encodeAuthorityMsg m).length)
      ((encodeAuthorityMsg m).map some ++ l)
    rw [length_beBytes, ← List.append_assoc, ← List.map_append] at this
    exact this
  have hbody : Read.readExact (encodeAuthorityMsg m).length ((encodeAuthorityMsg m).map some ++ l) =
      (.ok (encodeAuthorityMsg m), l) := readExact_map_some _ _
  unfold readTcpFrame
  rw [hhead]
  dsimp only
  rw [hbe, if_neg (Nat.not_lt.mpr hlen), hbody]
  dsimp only
  rw [decodeAuthorityMsg_encode hfits]

/-- A frame that is read is the frame of the message that it is read as. -/
theorem readTcpFrame_ok {s l : Items} {m : AuthorityMsg} (h : readTcpFrame s = (.ok m, l)) :
    m.Fits ∧ s = (encodeTcpFrame m).map some ++ l := by
  unfold readTcpFrame at h
  split at h
  · cases h
  next lenBuf s1 hlen =>
  dsimp only at h
  split at h
  · cases h
  split at h
  · cases h
  next body s2 hbody =>
  split at h
  · cases h
  next msg hdec =>
  cases h
  obtain ⟨h4, rfl⟩ := readExact_spec hlen
  obtain ⟨hn, rfl⟩ := readExact_spec hbody
  obtain ⟨hfits, rfl⟩ := decodeAuthorityMsg_eq_ok hdec
  refine ⟨hfits, ?_⟩
  unfold encodeTcpFrame
  dsimp only
  rw [hn, ← h4, beBytes_ofBeBytes, List.map_append, List.append_assoc]

/-- A timeout loses the bytes of the frame that came before it. -/
theorem readTcpFrame_timeout {s l : Items} {e : IoErrorKind} (h : readTcpFrame s = (.error e, l))
    (he : e = .wouldBlock ∨ e = .timedOut) : ∃ bs : Bytes, s = bs.map some ++ none :: l := by
  unfold readTcpFrame at h
  split at h
  · next hlen =>
    cases h
    rcases readExact_spec hlen with ⟨-, hs⟩ | rfl
    · exact hs
    · rcases he with he | he <;> cases he
  next lenBuf s1 hlen =>
  obtain ⟨-, rfl⟩ := readExact_spec hlen
  dsimp only at h
  split at h
  · cases h
    rcases he with he | he <;> cases he
  split at h
  · next hbody =>
    cases h
    rcases readExact_spec hbody with ⟨-, bs, rfl⟩ | rfl
    · refine ⟨lenBuf ++ bs, ?_⟩
      rw [List.map_append, List.append_assoc]
    · rcases he with he | he <;> cases he
  split at h
  · cases h
    rcases he with he | he <;> cases he
  · cases h

/-! ## The loop -/

namespace Session

theorem turn_dead {s : Session Items} (h : s.alive = false) : s.turn = s := by
  unfold turn
  rw [h]
  rfl

theorem iterate_dead {s : Session Items} (h : s.alive = false) (n : Nat) : turn^[n] s = s := by
  induction n with
  | zero => rfl
  | succ n ih => rw [iterate_succ_apply, turn_dead h, ih]

/-- Everything that a turn can do: push the frame at the front, skip to behind a timeout, or stop.
-/
theorem turn_cases (s : Items) (inbox : List AuthorityMsg) :
    (∃ m l, m.Fits ∧ s = (encodeTcpFrame m).map some ++ l ∧
      turn ⟨s, inbox, true⟩ = ⟨l, inbox ++ [m], true⟩) ∨
    (∃ (bs : Bytes) (l : Items), s = bs.map some ++ none :: l ∧
      turn ⟨s, inbox, true⟩ = ⟨l, inbox, true⟩) ∨
    (s.head? ≠ some none ∧ ∃ l, turn ⟨s, inbox, true⟩ = ⟨l, inbox, false⟩) := by
  unfold turn
  rw [if_pos rfl]
  dsimp only
  cases hread : readTcpFrame s with
  | mk r l =>
    cases r with
    | ok m =>
      obtain ⟨hfits, hs⟩ := readTcpFrame_ok hread
      exact .inl ⟨m, l, hfits, hs, rfl⟩
    | error e =>
      by_cases he : e = .wouldBlock ∨ e = .timedOut
      · obtain ⟨bs, hs⟩ := readTcpFrame_timeout hread he
        exact .inr (.inl ⟨bs, l, hs, by simp only [if_pos he]⟩)
      · refine .inr (.inr ⟨fun hhead => ?_, l, by simp only [if_neg he]⟩)
        cases s with
        | nil => cases hhead
        | cons item s =>
          cases hhead
          cases hread
          exact he (.inl rfl)

/-! ### All messages arrive -/

theorem turn_frame {m : AuthorityMsg} (hfits : m.Fits)
    (hlen : (encodeAuthorityMsg m).length ≤ maxFrame) (l : Items) (inbox : List AuthorityMsg) :
    turn ⟨(encodeTcpFrame m).map some ++ l, inbox, true⟩ = ⟨l, inbox ++ [m], true⟩ := by
  unfold turn
  rw [if_pos rfl]
  dsimp only
  rw [readTcpFrame_encode hfits hlen]

end Session

theorem delivers_of_aligned {msgs : List AuthorityMsg} {s : Items}
    (hfits : ∀ m ∈ msgs, m.Fits) (hlen : ∀ m ∈ msgs, (encodeAuthorityMsg m).length ≤ maxFrame)
    (hbytes : Items.bytes s = (msgs.map encodeTcpFrame).flatten)
    (haligned : Aligned (msgs.map encodeTcpFrame) s) (inbox : List AuthorityMsg) :
    ∃ n, Session.turn^[n] ⟨s, inbox, true⟩ = ⟨[], inbox ++ msgs, false⟩ := by
  induction hn : s.length using Nat.strong_induction_on generalizing s msgs inbox with
  | _ n ih =>
  subst hn
  cases s with
  | nil =>
    cases msgs with
    | nil =>
      refine ⟨1, ?_⟩
      rw [List.append_nil]
      rfl
    | cons m msgs =>
      rw [List.map_cons, List.flatten_cons] at hbytes
      exact absurd (List.append_eq_nil_iff.mp hbytes.symm).1 (encodeTcpFrame_ne_nil m)
  | cons item rest =>
    cases item with
    | none =>
      have hrest : Aligned (msgs.map encodeTcpFrame) rest := by
        intro pre post hs
        exact haligned (none :: pre) post (by rw [hs]; rfl)
      rw [bytes_none_cons] at hbytes
      obtain ⟨n, hn⟩ := ih rest.length (Nat.lt_succ_self _) hfits hlen hbytes hrest inbox rfl
      refine ⟨n + 1, ?_⟩
      rw [iterate_succ_apply]
      exact hn
    | some b =>
      cases msgs with
      | nil => cases hbytes
      | cons m msgs =>
        rw [List.map_cons, List.flatten_cons] at hbytes
        -- a timeout inside the first frame would come behind its first byte
        obtain ⟨l, hl⟩ := exists_front hbytes (fun pre post hs => by
          obtain ⟨k, hk⟩ := haligned pre post hs
          rw [hk]
          cases k with
          | zero =>
            cases pre with
            | nil => cases hs
            | cons c pre =>
              cases hs
              cases hk
          | succ k =>
            rw [List.map_cons, List.take_succ_cons, List.flatten_cons, List.length_append]
            exact Nat.le_add_right _ _)
        have hlt : l.length < (some b :: rest).length := by
          rw [hl, List.length_append, List.length_map]
          have := List.length_pos_iff.mpr (encodeTcpFrame_ne_nil m)
          omega
        rw [hl] at hbytes haligned ⊢
        rw [bytes_append, bytes_map_some] at hbytes
        obtain ⟨n, hn⟩ := ih l.length hlt (fun m' hm => hfits m' (List.mem_cons_of_mem _ hm))
          (fun m' hm => hlen m' (List.mem_cons_of_mem _ hm)) (List.append_cancel_left hbytes)
          (haligned.tail (encodeTcpFrame_ne_nil m)) (inbox ++ [m]) rfl
        refine ⟨n + 1, ?_⟩
        rw [iterate_succ_apply, Session.turn_frame (hfits m List.mem_cons_self)
          (hlen m List.mem_cons_self), hn, List.append_assoc]
        rfl

/-! ### No other way -/

/-- What is pushed was on the stream. -/
theorem frameBytes_le {n : Nat} {s : Items} {inbox : List AuthorityMsg} :
    ∃ msgs, (Session.turn^[n] ⟨s, inbox, true⟩).inbox = inbox ++ msgs ∧
      frameBytes msgs ≤ (Items.bytes s).length := by
  induction n generalizing s inbox with
  | zero => exact ⟨[], (List.append_nil _).symm, Nat.zero_le _⟩
  | succ n ih =>
    rw [iterate_succ_apply]
    rcases Session.turn_cases s inbox with ⟨m, l, -, rfl, hturn⟩ |
      ⟨bs, l, rfl, hturn⟩ | ⟨-, l, hturn⟩
    · obtain ⟨msgs, hinbox, hle⟩ := @ih l (inbox ++ [m])
      refine ⟨m :: msgs, ?_, ?_⟩
      · rw [hturn, hinbox, List.append_assoc]
        rfl
      · rw [frameBytes_cons, bytes_append, bytes_map_some, List.length_append]
        omega
    · obtain ⟨msgs, hinbox, hle⟩ := @ih l inbox
      refine ⟨msgs, by rw [hturn, hinbox], ?_⟩
      rw [bytes_append, bytes_none_cons, List.length_append]
      omega
    · refine ⟨[], ?_, Nat.zero_le _⟩
      rw [hturn, Session.iterate_dead rfl, List.append_nil]

/-- If nothing is missing in the end, nothing was lost at a timeout. -/
theorem aligned_of_delivers {n : Nat} {s : Items} {inbox msgs : List AuthorityMsg}
    (h : Session.turn^[n] ⟨s, inbox, true⟩ = ⟨[], inbox ++ msgs, false⟩)
    (hle : (Items.bytes s).length ≤ frameBytes msgs) :
    (∀ m ∈ msgs, m.Fits) ∧ Aligned (msgs.map encodeTcpFrame) s := by
  induction n generalizing s inbox msgs with
  | zero => cases congrArg Session.alive h
  | succ n ih =>
    rw [iterate_succ_apply] at h
    rcases Session.turn_cases s inbox with
      ⟨m, l, hfits, rfl, hturn⟩ | ⟨bs, l, rfl, hturn⟩ | ⟨hhead, l, hturn⟩
    · rw [hturn] at h
      obtain ⟨more, hmore, -⟩ := @frameBytes_le _ n l (inbox ++ [m])
      rw [h, List.append_assoc] at hmore
      obtain rfl : msgs = m :: more := List.append_cancel_left hmore
      have h' : Session.turn^[n] ⟨l, inbox ++ [m], true⟩ = ⟨[], (inbox ++ [m]) ++ more, false⟩ := by
        rw [h, List.append_assoc]
        rfl
      rw [frameBytes_cons, bytes_append, bytes_map_some, List.length_append] at hle
      obtain ⟨hall, haligned⟩ := ih h' (by omega)
      exact ⟨List.forall_mem_cons.mpr ⟨hfits, hall⟩, haligned.cons _⟩
    · rw [hturn] at h
      obtain ⟨more, hmore, hbound⟩ := @frameBytes_le _ n l inbox
      rw [h] at hmore
      obtain rfl : msgs = more := List.append_cancel_left hmore
      rw [bytes_append, bytes_none_cons, bytes_map_some, List.length_append] at hle
      -- the messages need all the bytes that are left, so none came before the timeout
      obtain rfl : bs = [] := List.length_eq_zero_iff.mp (by omega)
      obtain ⟨hall, haligned⟩ := ih h (by omega)
      exact ⟨hall, haligned.timeout⟩
    · rw [hturn, Session.iterate_dead rfl] at h
      obtain rfl : msgs = [] := List.self_eq_append_right.mp (congrArg Session.inbox h)
      refine ⟨fun m hm => (by cases hm), fun pre post hs => ?_⟩
      -- no bytes are left, and no timeout is next
      cases s with
      | nil => exact aligned_nil pre post hs
      | cons item s =>
        cases item with
        | none => exact absurd rfl hhead
        | some b => exact absurd hle (Nat.not_le.mpr (Nat.succ_pos _))

/-! ## The loop on the socket -/

/-- The session byte by byte. -/
def Session.items (s : Session (List Arrival)) : Session Items :=
  ⟨P2P333.Transfer333.items s.stream, s.inbox, s.alive⟩

theorem readTcpFrame_items (s : List Arrival) :
    Prod.map id items (readTcpFrame s) = readTcpFrame (items s) := by
  have hexact : ∀ n (s : List Arrival), (Read.readExact n (items s) : _ × Items) =
      Prod.map id items (Read.readExact n s) :=
    fun n s => (readExactLoop_items (Nat.le_refl n) s).symm
  unfold readTcpFrame
  rw [hexact]
  cases Read.readExact 4 s with
  | mk r s1 =>
    cases r with
    | error e => rfl
    | ok lenBuf =>
      dsimp only [Prod.map, id]
      split
      · rfl
      rw [hexact]
      cases Read.readExact (ofBeBytes lenBuf) s1 with
      | mk r s2 =>
        cases r with
        | error e => rfl
        | ok body =>
          dsimp only [Prod.map, id]
          cases decodeAuthorityMsg body with
          | error e => rfl
          | ok msg => rfl

theorem turn_items (s : Session (List Arrival)) : s.turn.items = s.items.turn := by
  obtain ⟨stream, inbox, alive⟩ := s
  cases alive with
  | false => rfl
  | true =>
    unfold Session.turn Session.items
    rw [if_pos rfl, if_pos rfl]
    dsimp only
    rw [← readTcpFrame_items]
    cases readTcpFrame stream with
    | mk r stream' =>
      cases r with
      | ok msg => rfl
      | error e =>
        dsimp only [Prod.map, id]
        split
        · rfl
        · rfl

theorem iterate_turn_items (s : Session (List Arrival)) (n : Nat) :
    (Session.turn^[n] s).items = Session.turn^[n] s.items :=
  Semiconj.iterate_right turn_items n s

theorem aligned_of_socket {msgs : List AuthorityMsg} {s : List Arrival} {n : Nat}
    (hbytes : Items.bytes (items s) = (msgs.map encodeTcpFrame).flatten)
    (h : Session.turn^[n] ⟨s, [], true⟩ = ⟨[], msgs, false⟩) :
    (∀ m ∈ msgs, m.Fits) ∧ Aligned (msgs.map encodeTcpFrame) (items s) := by
  have hitems : Session.turn^[n] ⟨items s, [], true⟩ = ⟨[], [] ++ msgs, false⟩ := by
    have := iterate_turn_items ⟨s, [], true⟩ n
    rw [h] at this
    exact this.symm
  refine aligned_of_delivers hitems ?_
  rw [hbytes]
  exact Nat.le_refl _

/-- The reader pushes exactly the messages that were sent, and stops only at the end of the stream,
if and only if the codec reads each of them and every timeout falls between two frames. -/
theorem delivers_iff {msgs : List AuthorityMsg} {s : List Arrival}
    (hlen : ∀ m ∈ msgs, (encodeAuthorityMsg m).length ≤ maxFrame)
    (hbytes : Items.bytes (items s) = (msgs.map encodeTcpFrame).flatten) :
    (∃ n, Session.turn^[n] ⟨s, [], true⟩ = ⟨[], msgs, false⟩) ↔
      (∀ m ∈ msgs, m.Fits) ∧ Aligned (msgs.map encodeTcpFrame) (items s) := by
  constructor
  · rintro ⟨n, hn⟩
    exact aligned_of_socket hbytes hn
  · rintro ⟨hfits, haligned⟩
    obtain ⟨n, hn⟩ := delivers_of_aligned hfits hlen hbytes haligned []
    refine ⟨n, ?_⟩
    have hitems : (Session.turn^[n] (⟨s, [], true⟩ : Session (List Arrival))).items =
        ⟨[], msgs, false⟩ := (iterate_turn_items ⟨s, [], true⟩ n).trans hn
    generalize Session.turn^[n] (⟨s, [], true⟩ : Session (List Arrival)) = r at hitems ⊢
    obtain ⟨stream, inbox, alive⟩ := r
    obtain rfl : stream = [] := items_eq_nil (congrArg Session.stream hitems)
    cases hitems
    rfl

end Frames

/-! ## Concrete runs -/

def chunkOf : Bytes → List Arrival
  | [] => []
  | b :: more => [.chunk b more]

/-- The frame of a message with a timeout behind its first `k` bytes. -/
def paused (k : Nat) (m : AuthorityMsg) : List Arrival :=
  chunkOf ((encodeTcpFrame m).take k) ++ .timeout :: chunkOf ((encodeTcpFrame m).drop k)

theorem items_chunkOf (bs : Bytes) : items (chunkOf bs) = bs.map some := by
  cases bs with
  | nil => rfl
  | cons b more => exact List.append_nil _

theorem items_paused (k : Nat) (m : AuthorityMsg) :
    items (paused k m) = ((encodeTcpFrame m).take k).map some ++
      none :: ((encodeTcpFrame m).drop k).map some := by
  rw [paused, items, List.flatMap_append, ← items, ← items, items_timeout, items_chunkOf,
    items_chunkOf]

theorem bytes_paused (k : Nat) (m : AuthorityMsg) :
    Items.bytes (items (paused k m)) = ([m].map encodeTcpFrame).flatten := by
  rw [items_paused, bytes_append, bytes_map_some, bytes_none_cons, bytes_map_some,
    List.take_append_drop]
  simp

open Demo in
/-- A timeout before the frame. -/
theorem delivers_iff_demo : ∃ n, Session.turn^[n] ⟨paused 0 (.epochCert wireCert), [], true⟩ =
    ⟨[], [.epochCert wireCert], false⟩ := by
  refine (delivers_iff ?_ (bytes_paused 0 _)).mpr ⟨?_, ?_⟩
  · decide +kernel
  · decide +kernel
  · have haligned := (aligned_nil.cons (encodeTcpFrame (.epochCert wireCert))).timeout
    rw [List.append_nil] at haligned
    rw [items_paused]
    exact haligned

open Demo in
/-- A timeout behind the first byte: the byte is gone, and the message with it. -/
theorem lost_at_timeout : ¬ ∃ n, Session.turn^[n] ⟨paused 1 (.epochCert wireCert), [], true⟩ =
    ⟨[], [.epochCert wireCert], false⟩ := by
  rintro ⟨n, hn⟩
  obtain ⟨-, haligned⟩ := aligned_of_socket (bytes_paused 1 _) hn
  obtain ⟨k, hk⟩ := haligned _ _ (items_paused 1 _)
  have hlen := congrArg List.length hk
  have hlong : 1 < (encodeTcpFrame (.epochCert wireCert)).length := by decide +kernel
  rw [bytes_map_some, List.length_take_of_le (Nat.le_of_lt hlong)] at hlen
  cases k with
  | zero => cases hlen
  | succ k =>
    rw [List.map_cons, List.take_succ_cons, List.flatten_cons, List.length_append] at hlen
    omega

end P2P333.Transfer333
