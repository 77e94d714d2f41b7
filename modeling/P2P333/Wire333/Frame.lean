import P2P333.Wire333.Codec

/-!
# Frames

`333-wire/src/lib.rs`: a frame is its length, a tag and a body. `decodeFrame` reads one from a
buffer and `readFrame` one from a stream. A panic is `none`. The buffer that `readFrame` allocates
for a body (`vec![0; body_len]`) is not modelled: memory does not run out.

Neither looks whether the length is zero, and what follows a body inside its frame is ignored.

Results:
1. `survive`: frames survive the wire, alone and one after the other.
2. `clean_iff`: which byte strings are handled cleanly.
-/

namespace P2P333.Wire333

open Lib Consensus333 Signaling333

/-- What is sent over a connection. -/
inductive Frame where
  | proposal (b : Block)
  | vote (v : Vote)
  | envelope (e : Envelope)
deriving DecidableEq

def msgProposal : UInt8 := 0x01

def msgVote : UInt8 := 0x02

def msgEnvelope : UInt8 := 0x03

namespace Frame

def tag : Frame → UInt8
  | proposal _ => msgProposal
  | vote _ => msgVote
  | envelope _ => msgEnvelope

def body : Frame → Bytes
  | proposal b => encodeBlock b
  | vote v => encodeVote v
  | envelope e => encodeEnvelope e

end Frame

def encodeFrame (frame : Frame) : Bytes :=
  lenBytes (frame.body.length + 1) ++ (frame.tag :: frame.body)

def decodeBlock (buf : Bytes) : Except WireError Block :=
  (·.1) <$> (decodeBlockBody buf.length).run buf

def decodeVote (buf : Bytes) : Except WireError Vote :=
  (·.1) <$> (decodeVoteBody buf.length).run buf

def decodeEnvelope (buf : Bytes) : Except WireError Envelope :=
  (·.1) <$> (decodeEnvelopeBody buf.length).run buf

/-- What both decoders do with a tag and a body. -/
def decodeTagged (tag : UInt8) (body : Bytes) : Except WireError Frame :=
  if tag = msgProposal then .proposal <$> decodeBlock body
  else if tag = msgVote then .vote <$> decodeVote body
  else if tag = msgEnvelope then .envelope <$> decodeEnvelope body
  else .error (.unknownType tag)

/-- The length that a frame begins with. -/
def bodyLen (bytes : Bytes) : Nat := ofBeBytes (bytes.take 4)

/-- `&bytes[lo..hi]`. -/
def slice (bytes : Bytes) (lo hi : Nat) : Option Bytes :=
  if lo ≤ hi ∧ hi ≤ bytes.length then some ((bytes.drop lo).take (hi - lo)) else none

def decodeFrame (bytes : Bytes) : Option (Except WireError Frame) :=
  if bytes.length < 5 then some (.error (.short 5 bytes.length))
  else if bytes.length < 4 + bodyLen bytes then
    some (.error (.short (4 + bodyLen bytes) bytes.length))
  else do
    let tag ← bytes[4]?
    let body ← slice bytes 5 (4 + bodyLen bytes)
    some (decodeTagged tag body)

/-- `read_exact`: what is read, and what is left of the stream. -/
def readExact (n : Nat) (stream : Bytes) : Option Bytes × Bytes :=
  if stream.length < n then (none, []) else (some (stream.take n), stream.drop n)

def readFrame (stream : Bytes) : Option (Except WireError Frame × Bytes) :=
  match readExact 4 stream with
  | (none, rest) => some (.error .io, rest)
  | (some lenBuf, stream) =>
    match readExact (ofBeBytes lenBuf) stream with
    | (none, rest) => some (.error .io, rest)
    | (some body, rest) => do
      let tag ← body[0]?
      let body ← slice body 1 body.length
      some (decodeTagged tag body, rest)

/-- `n` reads, one after the other. -/
def readFrames : Nat → Bytes → Option (List (Except WireError Frame))
  | 0, _ => some []
  | n + 1, stream => do
    let (r, rest) ← readFrame stream
    let rs ← readFrames n rest
    some (r :: rs)

/-! ## What comes back -/

namespace Frame

/-- The lengths of the fields fit `u32`. -/
def Fits : Frame → Prop
  | proposal b => BlockFits b
  | vote _ => True
  | envelope e => EnvelopeFits e

/-- The length of the frame fits `u32` too. -/
def Sized (f : Frame) : Prop := f.Fits ∧ f.body.length + 1 < 2 ^ 32

/-- Topics are compared by their strings. -/
def Same : Frame → Frame → Prop
  | proposal b, proposal b' => b = b' ∧ b.hash = b'.hash
  | vote v, vote v' => v = v'
  | envelope e, envelope e' =>
    e.topic.asStr = e'.topic.asStr ∧ e.sender = e'.sender ∧ e.addressee = e'.addressee ∧
      e.payload = e'.payload ∧ e.seq = e'.seq ∧ e.sig = e'.sig
  | _, _ => False

/-- The frame as it is read: a topic is found by its string. -/
def normal : Frame → Frame
  | envelope e => envelope { e with topic := Topic.fromStr e.topic.asStr }
  | f => f

@[simp] theorem tag_normal (f : Frame) : f.normal.tag = f.tag := by
  cases f <;> rfl

@[simp] theorem body_normal (f : Frame) : f.normal.body = f.body := by
  cases f <;> simp [normal, body, encodeEnvelope]

@[simp] theorem fits_normal (f : Frame) : f.normal.Fits ↔ f.Fits := by
  cases f <;> simp [normal, Fits, EnvelopeFits]

@[simp] theorem normal_normal (f : Frame) : f.normal.normal = f.normal := by
  cases f <;> simp [normal]

theorem same_normal (f : Frame) : f.Same f.normal := by
  cases f <;> simp [normal, Same]

end Frame

/-- What is left of the body is ignored. -/
theorem run_eq_ok {α : Type} {d : Cur.Take α} {enc : α → Bytes} {dom : α → Prop}
    (h : Exact d enc dom) {buf : Bytes} {a : α} :
    (·.1) <$> d.run buf = .ok a ↔ dom a ∧ ∃ rest, buf = enc a ++ rest := by
  constructor
  · intro hrun
    cases hd : d.run buf with
    | error e =>
      rw [hd] at hrun
      cases hrun
    | ok p =>
      rw [hd] at hrun
      cases hrun
      obtain ⟨hdom, heq⟩ := h.sound _ _ _ hd
      exact ⟨hdom, _, heq⟩
  · rintro ⟨hdom, rest, rfl⟩
    rw [h.complete a rest hdom]
    rfl

theorem map_eq_ok {ε α β : Type} {g : α → β} {x : Except ε α} {b : β} :
    g <$> x = .ok b ↔ ∃ a, x = .ok a ∧ g a = b := by
  cases x <;> simp [Functor.map, Except.map]

/-- A body is read as the frame that it begins with. -/
theorem decodeTagged_eq_ok {t : UInt8} {body : Bytes} {f : Frame} :
    decodeTagged t body = .ok f ↔
      f.tag = t ∧ f.normal = f ∧ f.Fits ∧ ∃ rest, body = f.body ++ rest := by
  have hblock : ∀ b, decodeBlock body = .ok b ↔ BlockFits b ∧ ∃ rest, body =
    encodeBlock b ++ rest :=
    fun b => run_eq_ok (exact_decodeBlockBody _)
  have hvote : ∀ v, decodeVote body = .ok v ↔ True ∧ ∃ rest, body = encodeVote v ++ rest :=
    fun v => run_eq_ok (exact_decodeVoteBody _)
  have henvelope : ∀ e, decodeEnvelope body = .ok e ↔
      (EnvelopeFits e ∧ Topic.fromStr e.topic.asStr = e.topic) ∧
        ∃ rest, body = encodeEnvelope e ++ rest := fun e => run_eq_ok (exact_decodeEnvelopeBody _)
  unfold decodeTagged
  split_ifs with h1 h2 h3
  · subst h1
    rw [map_eq_ok]
    cases f <;> simp [hblock, Frame.tag, Frame.normal, Frame.Fits, Frame.body, msgProposal, msgVote,
      msgEnvelope]
  · subst h2
    rw [map_eq_ok]
    cases f <;> simp [hvote, Frame.tag, Frame.normal, Frame.Fits, Frame.body, msgProposal, msgVote,
      msgEnvelope]
  · subst h3
    rw [map_eq_ok]
    cases f with
    | envelope e =>
      obtain ⟨topic, sender, addressee, payload, seq, sig⟩ := e
      simp [henvelope, Frame.tag, Frame.normal, Frame.Fits, Frame.body, and_assoc, and_left_comm]
    | _ => simp [Frame.tag, msgProposal, msgVote, msgEnvelope]
  · simp only [false_iff]
    rintro ⟨htag, -⟩
    cases f
    · exact h1 htag.symm
    · exact h2 htag.symm
    · exact h3 htag.symm

/-! ## The two decoders -/

/-- What a frame holds after its length. -/
def framed (b : Bytes) : Bytes := (b.drop 4).take (bodyLen b)

section Decoders

variable {b : Bytes}

theorem framed_eq_cons (h : 4 + bodyLen b ≤ b.length) (hpos : bodyLen b ≠ 0) :
    ∃ t body, framed b = t :: body ∧ body.length + 1 = bodyLen b ∧ b[4]? = some t ∧
      slice b 5 (4 + bodyLen b) = some body := by
  have hlen : (framed b).length = bodyLen b := by
    rw [framed, List.length_take, List.length_drop]
    omega
  cases hf : framed b with
  | nil =>
    rw [hf] at hlen
    exact absurd hlen.symm hpos
  | cons t body =>
    have ht : b[4]? = some t := by
      have hget : (framed b)[0]? = some t := by rw [hf]; rfl
      rwa [framed, List.getElem?_take_of_lt (Nat.pos_of_ne_zero hpos), List.getElem?_drop] at hget
    have hbody : (b.drop 5).take (bodyLen b - 1) = body := by
      have htail : (framed b).drop 1 = body := by rw [hf]; rfl
      rw [← htail, framed, List.drop_take, List.drop_drop]
    refine ⟨t, body, rfl, ?_, ht, ?_⟩
    · rw [← hlen, hf, List.length_cons]
    · have hsub : 4 + bodyLen b - 5 = bodyLen b - 1 := by omega
      rw [slice, if_pos (by omega), hsub, hbody]

theorem decodeFrame_of_framed {t : UInt8} {body : Bytes} (h : 4 + bodyLen b ≤ b.length)
    (hpos : bodyLen b ≠ 0) (hf : framed b = t :: body) :
    decodeFrame b = some (decodeTagged t body) := by
  obtain ⟨t', body', hf', -, ht, hslice⟩ := framed_eq_cons h hpos
  obtain ⟨rfl, rfl⟩ := List.cons_eq_cons.mp (hf.symm.trans hf')
  rw [decodeFrame, if_neg (by omega), if_neg (by omega), ht, hslice]
  rfl

/-- `&body[1..]` of a body that is not empty. -/
theorem slice_one (t : UInt8) (body : Bytes) : slice (t :: body) 1
    (t :: body).length = some body := by
  simp [slice]

theorem readFrame_eq (h : 4 + bodyLen b ≤ b.length) : readFrame b = (do
    let t ← (framed b)[0]?
    let body ← slice (framed b) 1 (framed b).length
    some (decodeTagged t body, b.drop (4 + bodyLen b))) := by
  have hlen : ¬ b.length < 4 := by omega
  have hrest : ¬ (b.drop 4).length < bodyLen b := by
    rw [List.length_drop]
    omega
  rw [bodyLen] at hrest
  simp only [readFrame, readExact, if_neg hlen, if_neg hrest, List.drop_drop, framed, bodyLen]

theorem readFrame_of_framed {t : UInt8} {body : Bytes} (h : 4 + bodyLen b ≤ b.length)
    (hf : framed b = t :: body) :
    readFrame b = some (decodeTagged t body, b.drop (4 + bodyLen b)) := by
  rw [readFrame_eq h, hf, slice_one]
  rfl

theorem decodeFrame_short (h : b.length < 4 + bodyLen b) :
    ∃ e, decodeFrame b = some (.error e) := by
  by_cases hlen : b.length < 5
  · exact ⟨_, if_pos hlen⟩
  · exact ⟨_, (if_neg hlen).trans (if_pos h)⟩

theorem readFrame_short (h : b.length < 4 + bodyLen b) : readFrame b = some (.error .io, []) := by
  unfold readFrame readExact
  by_cases hlen : b.length < 4
  · simp only [if_pos hlen]
  · have hrest : (b.drop 4).length < ofBeBytes (b.take 4) := by
      rw [List.length_drop]
      unfold bodyLen at h
      omega
    simp only [if_neg hlen, if_pos hrest]

/-- A length of zero: no tag. -/
theorem readFrame_zero (hlen : 4 ≤ b.length) (h : bodyLen b = 0) : readFrame b = none := by
  rw [readFrame_eq (by omega), framed, h]
  rfl

end Decoders

/-! ## What was written -/

section Encoded

variable {f : Frame} (hf : f.Sized) (rest : Bytes)
include hf

theorem bodyLen_encodeFrame : bodyLen (encodeFrame f ++ rest) = f.body.length + 1 := by
  have htake : (encodeFrame f ++ rest).take 4 = beBytes 4 (f.body.length + 1) := by
    rw [encodeFrame, lenBytes, List.append_assoc, List.take_append_of_le_length (by simp),
      List.take_of_length_le (by simp)]
  rw [bodyLen, htake]
  exact ofBeBytes_beBytes hf.2

omit hf in
theorem drop_encodeFrame :
    (encodeFrame f ++ rest).drop 4 = f.tag :: f.body ++ rest := by
  rw [encodeFrame, lenBytes, List.append_assoc, List.drop_append_of_le_length (by simp),
    List.drop_eq_nil_of_le (by simp), List.nil_append]

theorem framed_encodeFrame : framed (encodeFrame f ++ rest) = f.tag :: f.body := by
  rw [framed, bodyLen_encodeFrame hf, drop_encodeFrame]
  exact List.take_left' rfl

theorem complete_encodeFrame :
    4 + bodyLen (encodeFrame f ++ rest) ≤ (encodeFrame f ++ rest).length := by
  rw [bodyLen_encodeFrame hf]
  simp [encodeFrame, lenBytes]

theorem decodeTagged_encodeFrame : decodeTagged f.tag f.body = .ok f.normal := by
  rw [decodeTagged_eq_ok]
  exact ⟨f.tag_normal, f.normal_normal, f.fits_normal.mpr hf.1, [], by simp⟩

theorem decodeFrame_encodeFrame : decodeFrame (encodeFrame f ++ rest) = some (.ok f.normal) := by
  have hpos : bodyLen (encodeFrame f ++ rest) ≠ 0 := by
    rw [bodyLen_encodeFrame hf]
    exact Nat.succ_ne_zero _
  rw [decodeFrame_of_framed (complete_encodeFrame hf rest) hpos (framed_encodeFrame hf rest),
    decodeTagged_encodeFrame hf]

theorem readFrame_encodeFrame : readFrame (encodeFrame f ++ rest) = some (.ok f.normal, rest) := by
  have hdrop : (encodeFrame f ++ rest).drop (4 + (f.body.length + 1)) = rest := by
    rw [← List.drop_drop, drop_encodeFrame]
    exact List.drop_left' rfl
  rw [readFrame_of_framed (complete_encodeFrame hf rest) (framed_encodeFrame hf rest),
    decodeTagged_encodeFrame hf, bodyLen_encodeFrame hf, hdrop]

end Encoded

theorem readFrames_nil (k : Nat) :
    readFrames k [] = some (List.replicate k (.error .io)) := by
  induction k with
  | zero => rfl
  | succ k ih =>
    have hread : readFrame [] = some (.error .io, []) := rfl
    rw [readFrames, hread]
    simp only [Option.bind_eq_bind, Option.bind_some, ih, List.replicate_succ]

theorem readFrames_encodeFrame (fs : List Frame) (hfs : ∀ f ∈ fs, f.Sized) (k : Nat) :
    readFrames (fs.length + k) (fs.flatMap encodeFrame) =
      some (fs.map (.ok ·.normal) ++ List.replicate k (.error .io)) := by
  induction fs with
  | nil => simpa using readFrames_nil k
  | cons f fs ih =>
    have hlen : (f :: fs).length + k = fs.length + k + 1 := by
      rw [List.length_cons]
      omega
    rw [hlen, List.flatMap_cons, readFrames, readFrame_encodeFrame (hfs f List.mem_cons_self)]
    simp only [Option.bind_eq_bind, Option.bind_some,
      ih fun g hg => hfs g (List.mem_cons_of_mem _ hg), List.map_cons, List.cons_append]

/-- A frame whose lengths fit is read back, and so are frames that follow one another; then the
stream has ended. -/
theorem survive (fs : List Frame) (hfs : ∀ f ∈ fs, f.Sized) (k : Nat) :
    (∀ f ∈ fs, ∃ f', decodeFrame (encodeFrame f) = some (.ok f') ∧ f.Same f') ∧
      ∃ fs', List.Forall₂ Frame.Same fs fs' ∧ readFrames (fs.length + k) (fs.flatMap encodeFrame) =
        some (fs'.map .ok ++ List.replicate k (.error .io)) := by
  constructor
  · intro f hf
    refine ⟨f.normal, ?_, f.same_normal⟩
    rw [← List.append_nil (encodeFrame f)]
    exact decodeFrame_encodeFrame (hfs f hf) []
  · refine ⟨fs.map Frame.normal, ?_, ?_⟩
    · rw [List.forall₂_map_right_iff, List.forall₂_same]
      exact fun f _ => f.same_normal
    · rw [List.map_map]
      exact readFrames_encodeFrame fs hfs k

/-! ## Clean handling -/

/-- Neither decoder panics, they agree on one whole frame, and what they accept is what would be
written. -/
structure Clean (b : Bytes) : Prop where
  decode_calm : (decodeFrame b).isSome
  read_calm : (readFrame b).isSome
  agree : b.length = 4 + bodyLen b → decodeFrame b = (readFrame b).map (·.1)
  decoded : ∀ f, decodeFrame b = some (.ok f) → encodeFrame f = b.take (4 + bodyLen b)
  read : ∀ f rest, readFrame b = some (.ok f, rest) → encodeFrame f ++ rest = b

/-- There is a tag in the frame, and nothing after its body. -/
structure Tight (b : Bytes) : Prop where
  tagged : 4 ≤ b.length → bodyLen b ≠ 0
  full : 4 + bodyLen b ≤ b.length → ∀ (f : Frame) (rest : Bytes), f.Fits →
    framed b = f.tag :: (f.body ++ rest) → rest = []

section Handling

variable {b : Bytes}

/-- The bytes that a frame begins with are those of its length. -/
theorem take_four (h : 4 ≤ b.length) : b.take 4 = lenBytes (bodyLen b) := by
  have hlen : (b.take 4).length = 4 := List.length_take_of_le h
  have hbytes := beBytes_ofBeBytes (b.take 4)
  rw [hlen] at hbytes
  exact hbytes.symm

theorem encodeFrame_of_framed {f : Frame} (h : 4 + bodyLen b ≤ b.length)
    (hf : framed b = f.tag :: f.body) : encodeFrame f = b.take (4 + bodyLen b) := by
  have hlen : f.body.length + 1 = bodyLen b := by
    rw [← List.length_cons, ← hf, framed, List.length_take, List.length_drop]
    omega
  rw [encodeFrame, hlen, ← hf, ← take_four (by omega), framed, List.take_add]

theorem framed_of_encodeFrame {f : Frame} (hf : encodeFrame f = b.take (4 + bodyLen b)) :
    framed b = f.tag :: f.body := by
  have hdrop : (encodeFrame f).drop 4 = f.tag :: f.body := by
    rw [encodeFrame, lenBytes]
    exact List.drop_left' (length_beBytes ..)
  rw [← hdrop, hf, framed, List.drop_take, Nat.add_sub_cancel_left]

/-- What is read of a tight frame is what would be written. -/
theorem Tight.encodeFrame_eq (h : Tight b) (hlen : 4 + bodyLen b ≤ b.length) {t : UInt8}
    {body : Bytes}
    {f : Frame} (hf : framed b = t :: body) (hdec : decodeTagged t body = .ok f) :
    encodeFrame f = b.take (4 + bodyLen b) := by
  obtain ⟨rfl, -, hfits, rest, rfl⟩ := decodeTagged_eq_ok.mp hdec
  obtain rfl := h.full hlen f rest hfits hf
  rw [List.append_nil] at hf
  exact encodeFrame_of_framed hlen hf

theorem Tight.clean (h : Tight b) : Clean b := by
  by_cases hlen : 4 + bodyLen b ≤ b.length
  · have hpos := h.tagged (by omega)
    obtain ⟨t, body, hf, -⟩ := framed_eq_cons hlen hpos
    have hdecode := decodeFrame_of_framed hlen hpos hf
    have hread := readFrame_of_framed hlen hf
    refine ⟨by rw [hdecode]; rfl, by rw [hread]; rfl, fun _ => by rw [hdecode, hread]; rfl, ?_, ?_⟩
    · intro f hok
      rw [hdecode, Option.some.injEq] at hok
      exact h.encodeFrame_eq hlen hf hok
    · intro f rest hok
      rw [hread, Option.some.injEq, Prod.mk.injEq] at hok
      obtain ⟨hok, rfl⟩ := hok
      rw [h.encodeFrame_eq hlen hf hok, List.take_append_drop]
  · obtain ⟨e, hdecode⟩ := decodeFrame_short (not_le.mp hlen)
    have hread := readFrame_short (not_le.mp hlen)
    refine ⟨by rw [hdecode]; rfl, by rw [hread]; rfl, fun heq => absurd heq.ge hlen, ?_, ?_⟩
    · intro f hok
      rw [hdecode] at hok
      cases hok
    · intro f rest hok
      rw [hread] at hok
      cases hok

theorem Clean.tight (h : Clean b) : Tight b where
  tagged hlen hzero := by
    have hcalm := h.read_calm
    rw [readFrame_zero hlen hzero] at hcalm
    cases hcalm
  full hlen f rest hfits hf := by
    have hpos : bodyLen b ≠ 0 := by
      intro hzero
      rw [framed, hzero] at hf
      cases hf
    have hdec : decodeTagged f.tag (f.body ++ rest) = .ok f.normal :=
      decodeTagged_eq_ok.mpr ⟨f.tag_normal, f.normal_normal, f.fits_normal.mpr hfits, rest, by simp⟩
    have hok : decodeFrame b = some (.ok f.normal) := by
      rw [decodeFrame_of_framed hlen hpos hf, hdec]
    have henc := framed_of_encodeFrame (h.decoded _ hok)
    rw [hf, f.tag_normal, f.body_normal, List.cons.injEq] at henc
    exact List.append_right_eq_self.mp henc.2

end Handling

/-- A byte string is handled cleanly if and only if its length is not zero and no body is followed
by more bytes of its frame. -/
theorem clean_iff (b : Bytes) : Clean b ↔ Tight b := ⟨Clean.tight, Tight.clean⟩

namespace Demo

def node : NodeId := .replicate 32 7

def ballot : Vote := ⟨3, .replicate 32 1, node, .precommit, .replicate 64 9⟩

def bids : Block :=
  ⟨3, node, .replicate 32 0, [.auctionBid node "a" 5, .rankedAction node "b" 1 [0]], .confirmed⟩

def greeting : Envelope := ⟨.custom "/333/ice", node, some node, [1, 2], 4, .replicate 64 9⟩

def session : List Frame := [.vote ballot, .proposal bids, .envelope greeting]

theorem session_sized : ∀ f ∈ session, f.Sized := by
  intro f hf
  simp only [session, List.mem_cons, List.not_mem_nil, or_false] at hf
  obtain rfl | rfl | rfl := hf
  · exact ⟨trivial, by decide +kernel⟩
  · refine ⟨⟨by decide, fun op hop => ?_⟩, by decide +kernel⟩
    simp only [bids, List.mem_cons, List.not_mem_nil, or_false] at hop
    obtain rfl | rfl := hop
    · exact (by decide : (utf8 "a").length < 2 ^ 32)
    · exact (by decide : (utf8 "b").length < 2 ^ 32 ∧ ([0] : Bytes).length < 2 ^ 32)
  · exact ⟨(by decide +kernel : (utf8 "/333/ice").length < 2 ^ 32 ∧
      ([1, 2] : Bytes).length < 2 ^ 32),
      by decide +kernel⟩

theorem survive_session :
    (∀ f ∈ session, ∃ f', decodeFrame (encodeFrame f) = some (.ok f') ∧ f.Same f') ∧
      ∃ fs', List.Forall₂ Frame.Same session fs' ∧
        readFrames (session.length + 1) (session.flatMap encodeFrame) =
          some (fs'.map .ok ++ [.error .io]) :=
  survive session session_sized 1

/-- A length of zero stops both decoders, and a byte after the body of a vote is swallowed. -/
theorem not_clean : ¬ Clean [0, 0, 0, 0, 1] ∧
    ¬ Clean (lenBytes ((encodeVote ballot).length + 2) ++ msgVote ::
      (encodeVote ballot ++ [0])) := by
  constructor
  · intro h
    exact absurd h.decode_calm (by decide)
  · intro h
    have hrest := h.tight.full (by decide +kernel) (.vote ballot) [0] trivial (by decide +kernel)
    exact List.cons_ne_nil _ _ hrest

end Demo

end P2P333.Wire333
