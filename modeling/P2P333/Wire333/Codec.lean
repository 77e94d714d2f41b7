import P2P333.Lib.Words
import P2P333.Signaling333.Envelope

/-!
# Bodies of frames

`333-wire/src/lib.rs`: the codecs of blocks, votes and envelopes. A cursor stands at a position of
its buffer; here the state is what is left of the buffer, and the position is what is missing from
its length. `usize` has 64 bits, so that positions do not overflow. That a decoder reserves as many
places as a block says it has operations (`Vec::with_capacity(n_ops)`) is not modelled.

Results:
1. `exact_decodeBlockBody`, `exact_decodeVoteBody`, `exact_decodeEnvelopeBody`: a body is
   read back, whatever follows it, and nothing else is accepted.
-/

namespace P2P333.Wire333

open Lib Consensus333 Signaling333

/-- Why bytes are not read. -/
inductive WireError where
  /-- The stream ends before it should. -/
  | io
  | short (need got : Nat)
  | unknownType (tag : UInt8)
  | malformed (reason : String)
  | peerLost
deriving DecidableEq

/-! ## Encoders -/

/-- `len() as u32`, as four bytes. -/
def lenBytes (n : Nat) : Bytes := beBytes 4 n

def finalityTag : BlockFinality → UInt8
  | .tentative => 0
  | .confirmed => 1
  | .committed => 2

def encodeOp : SettlementOp → Bytes
  | .transfer sender recipient amount payload =>
    1 :: (sender.toList ++ (recipient.toList ++ (beBytes 8 amount.toNat ++
      (lenBytes payload.length ++ payload))))
  | .auctionBid bidder item amount =>
    2 :: (bidder.toList ++ (lenBytes (utf8 item).length ++ utf8 item ++ beBytes 8 amount.toNat))
  | .rankedAction actor kind rank payload =>
    3 :: (actor.toList ++ (lenBytes (utf8 kind).length ++ utf8 kind ++ (beBytes 4 rank.toNat ++
      (lenBytes payload.length ++ payload))))

def encodeBlock (b : Block) : Bytes :=
  beBytes 8 b.height.toNat ++ (b.proposer.toList ++ (b.parentHash.toList ++
    ([finalityTag b.finality] ++ (lenBytes b.ops.length ++ b.ops.flatMap encodeOp))))

def encodeVote (v : Vote) : Bytes :=
  beBytes 8 v.height.toNat ++ (v.blockHash.toList ++ (v.voter.toList ++
    ([v.kind.tag] ++ v.sig.toList)))

def encodeEnvelope (e : Envelope) : Bytes :=
  (lenBytes (utf8 e.topic.asStr).length ++ utf8 e.topic.asStr) ++ (e.sender.toList ++
    ((match e.addressee with
      | some n => 1 :: n.toList
      | none => [0]) ++
    ((lenBytes e.payload.length ++ e.payload) ++ (beBytes 8 e.seq.toNat ++ e.sig.toList))))

/-! ## Decoders -/

namespace Cur

variable (len : Nat)

/-- The cursor of a buffer of length `len`. -/
abbrev Take (α : Type) := Decoder WireError α

def short (n : Nat) (rest : Bytes) : WireError := .short (len - rest.length + n) len

def take (n : Nat) : Take Bytes := Decoder.takeOr (short len) n

def u8 : Take UInt8 := Decoder.u8 (short len)

def u32be : Take UInt32 := Decoder.u32be (short len)

def u64be : Take UInt64 := Decoder.u64be (short len)

/-- `take(n)?.try_into().unwrap()`. -/
def array (n : Nat) : Take (List.Vector UInt8 n) := Decoder.vectorOr (short len) n

def nodeId : Take NodeId := array len 32

def sig : Take Signature := array len 64

def varbytes : Take Bytes := do
  let n ← u32be len
  take len n.toNat

def varstr : Take String := do
  let bytes ← varbytes len
  Decoder.ofOption (.malformed "invalid utf8") (ofUtf8 bytes)

theorem exact_varbytes :
    Exact (varbytes len) (fun b => lenBytes b.length ++ b) (fun b => b.length < 2 ^ 32) := by
  have hnat : ∀ b : Bytes, b.length < 2 ^ 32 → (UInt32.ofNat b.length).toNat = b.length := by
    intro b hb
    rw [UInt32.toNat_ofNat']
    exact Nat.mod_eq_of_lt hb
  refine Exact.congr
    (Exact.bind (fun b : Bytes => UInt32.ofNat b.length) ?_ (exact_u32be (short len))
    (fun n => exact_takeOr (short len) n.toNat)) (fun b => ?_) (fun b hb => ?_)
  · rintro n b - hb
    rw [hb, UInt32.ofNat_toNat]
  · simp only [true_and]
    constructor
    · intro hb
      rw [hb]
      exact UInt32.toNat_lt _
    · intro hb
      exact (hnat b hb).symm
  · rw [lenBytes, ← hb.2]

theorem exact_varstr : Exact (varstr len) (fun s => lenBytes (utf8 s).length ++ utf8 s)
    (fun s => (utf8 s).length < 2 ^ 32) := by
  refine Exact.congr (Exact.bind utf8 ?_ (exact_varbytes len)
    (fun b => exact_ofOption _ (ofUtf8 b))) (fun s => ?_) (fun s _ => List.append_nil _)
  · intro b s _ hs
    exact ofUtf8_eq_some.mp hs
  · rw [ofUtf8_eq_some]
    simp

end Cur

section Bodies

variable (len : Nat)

open Cur

def decodeOp : Take SettlementOp := do
  let tag ← u8 len
  match tag with
  | 1 => do
    let sender ← nodeId len
    let recipient ← nodeId len
    let amount ← u64be len
    let payload ← varbytes len
    pure (.transfer sender recipient amount payload)
  | 2 => do
    let bidder ← nodeId len
    let item ← varstr len
    let amount ← u64be len
    pure (.auctionBid bidder item amount)
  | 3 => do
    let actor ← nodeId len
    let kind ← varstr len
    let rank ← u32be len
    let payload ← varbytes len
    pure (.rankedAction actor kind rank payload)
  | _ => throw (.malformed "bad op tag")

def decodeFinality : Take BlockFinality := do
  match ← u8 len with
  | 0 => pure .tentative
  | 1 => pure .confirmed
  | 2 => pure .committed
  | _ => throw (.malformed "bad finality tag")

def decodeBlockBody : Take Block := do
  let height ← u64be len
  let proposer ← nodeId len
  let parentHash ← array len 32
  let finality ← decodeFinality len
  let nOps ← u32be len
  let ops ← Decoder.many (decodeOp len) nOps.toNat
  pure ⟨height, proposer, parentHash, ops, finality⟩

def decodeKind : Take VoteKind := do
  match ← u8 len with
  | 1 => pure .prevote
  | 2 => pure .precommit
  | _ => throw (.malformed "bad vote kind")

def decodeVoteBody : Take Vote := do
  let height ← u64be len
  let blockHash ← array len 32
  let voter ← nodeId len
  let kind ← decodeKind len
  let sig ← Cur.sig len
  pure ⟨height, blockHash, voter, kind, sig⟩

def decodeTo : Take (Option NodeId) := do
  match ← u8 len with
  | 1 => do
    let n ← nodeId len
    pure (some n)
  | 0 => pure none
  | _ => throw (.malformed "bad to flag")

def decodeEnvelopeBody : Take Envelope := do
  let topic ← varstr len
  let sender ← nodeId len
  let addressee ← decodeTo len
  let payload ← varbytes len
  let seq ← u64be len
  let sig ← Cur.sig len
  pure ⟨Topic.fromStr topic, sender, addressee, payload, seq, sig⟩

end Bodies

/-! ## What fits -/

def OpFits : SettlementOp → Prop
  | .transfer _ _ _ payload => payload.length < 2 ^ 32
  | .auctionBid _ item _ => (utf8 item).length < 2 ^ 32
  | .rankedAction _ kind _ payload => (utf8 kind).length < 2 ^ 32 ∧ payload.length < 2 ^ 32

/-- The lengths of the fields fit `u32`. -/
def BlockFits (b : Block) : Prop := b.ops.length < 2 ^ 32 ∧ ∀ op ∈ b.ops, OpFits op

def EnvelopeFits (e : Envelope) : Prop :=
  (utf8 e.topic.asStr).length < 2 ^ 32 ∧ e.payload.length < 2 ^ 32

/-! ## Exactness -/

section Exactness

variable (len : Nat)

open Cur

/-- A tag, and then what it asks for. -/
theorem exact_tagged {α : Type} (tag : α → UInt8) {rest : UInt8 → Take α} {enc : α → Bytes}
    {dom : α → Prop} (h : ∀ t, Exact (rest t) enc fun a => tag a = t ∧ dom a) :
    Exact (u8 len >>= rest) (fun a => tag a :: enc a) dom := by
  refine Exact.congr (Exact.bind tag (fun t a _ ha => ha.1) (exact_u8 (short len)) h) (fun a => ?_)
    fun a _ => rfl
  simp

/-- Nothing is read. -/
theorem exact_throw {α : Type} (e : WireError) {enc : α → Bytes} {dom : α → Prop}
    (hdom : ∀ a, ¬ dom a) : Exact (throw e : Take α) enc dom where
  complete a _ ha := absurd ha (hdom a)
  sound _ _ _ h := by cases h

/-- A value that takes no bytes. -/
theorem exact_const {α : Type} (a : α) {dom : α → Prop} (hdom : ∀ b, dom b ↔ b = a) :
    Exact (pure a : Take α) (fun _ => []) dom :=
  (Exact.pure a).congr (fun b => (hdom b).symm) fun _ _ => rfl

theorem exact_decodeFinality :
    Exact (decodeFinality len) (fun x => [finalityTag x]) (fun _ => True) := by
  refine exact_tagged len finalityTag fun t => ?_
  split
  · exact exact_const _ fun b => by cases b <;> decide
  · exact exact_const _ fun b => by cases b <;> decide
  · exact exact_const _ fun b => by cases b <;> decide
  · next h0 h1 h2 =>
    refine exact_throw _ fun b hb => ?_
    cases b
    · exact h0 hb.1.symm
    · exact h1 hb.1.symm
    · exact h2 hb.1.symm

theorem exact_decodeKind : Exact (decodeKind len) (fun x => [x.tag]) (fun _ => True) := by
  refine exact_tagged len VoteKind.tag fun t => ?_
  split
  · exact exact_const _ fun b => by cases b <;> decide
  · exact exact_const _ fun b => by cases b <;> decide
  · next h1 h2 =>
    refine exact_throw _ fun b hb => ?_
    cases b
    · exact h1 hb.1.symm
    · exact h2 hb.1.symm

theorem exact_decodeTo : Exact (decodeTo len) (fun o : Option NodeId => match o with
    | some n => 1 :: n.toList
    | none => [0]) (fun _ => True) := by
  have htagged : Exact (decodeTo len) (fun o => (if o.isSome then 1 else 0) :: match o with
      | some n => n.toList
      | none => []) (fun _ => True) := by
    refine exact_tagged len (fun o : Option NodeId => if o.isSome then 1 else 0) fun t => ?_
    split
    · refine Exact.congr (Exact.bind (fun o : Option NodeId => o.getD (.replicate 32 0)) (by grind)
        (exact_vectorOr (short len) 32) fun n => Exact.pure (some n)) (fun o => ?_) (fun o ho => ?_)
      · cases o <;> simp
      · cases o with
        | none => simp at ho
        | some n => simp
    · refine (exact_const none fun o => ?_).congr (fun _ => Iff.rfl) fun o ho => ?_
      · cases o <;> simp
      · cases o with
        | none => rfl
        | some n => simp at ho
    · next h1 h0 =>
      refine exact_throw _ fun o ho => ?_
      cases o with
      | none => exact h0 (by simpa using ho.1.symm)
      | some n => exact h1 (by simpa using ho.1.symm)
  refine htagged.congr (fun _ => Iff.rfl) fun o _ => ?_
  cases o <;> rfl

theorem exact_decodeVoteBody : Exact (decodeVoteBody len) encodeVote (fun _ => True) := by
  refine Exact.congr
    (Exact.bind Vote.height (by grind) (exact_u64be (short len)) fun height =>
      Exact.bind Vote.blockHash (by grind) (exact_vectorOr (short len) 32) fun blockHash =>
      Exact.bind Vote.voter (by grind) (exact_vectorOr (short len) 32) fun voter =>
      Exact.bind Vote.kind (by grind) (exact_decodeKind len) fun kind =>
      Exact.bind Vote.sig (by grind) (exact_vectorOr (short len) 64) fun sig =>
      Exact.pure (Vote.mk height blockHash voter kind sig)) (fun v => ?_) (fun v _ => ?_)
  · simp
  · simp only [encodeVote, List.append_nil]

/-! The fields of an operation, with a default where it does not have the field. -/

def partyOf : SettlementOp → NodeId
  | .transfer sender _ _ _ => sender
  | .auctionBid bidder _ _ => bidder
  | .rankedAction actor _ _ _ => actor

def recipientOf : SettlementOp → NodeId
  | .transfer _ recipient _ _ => recipient
  | op => partyOf op

def amountOf : SettlementOp → UInt64
  | .transfer _ _ amount _ => amount
  | .auctionBid _ _ amount => amount
  | .rankedAction _ _ _ _ => 0

def textOf : SettlementOp → String
  | .transfer _ _ _ _ => ""
  | .auctionBid _ item _ => item
  | .rankedAction _ kind _ _ => kind

def rankOf : SettlementOp → UInt32
  | .rankedAction _ _ rank _ => rank
  | _ => 0

def payloadOf : SettlementOp → Bytes
  | .transfer _ _ _ payload => payload
  | .auctionBid _ _ _ => []
  | .rankedAction _ _ _ payload => payload

theorem exact_decodeOp : Exact (decodeOp len) encodeOp OpFits := by
  have htagged : Exact (decodeOp len) (fun op => op.tag :: (encodeOp op).tail) OpFits := by
    refine exact_tagged len SettlementOp.tag fun t => ?_
    split
    · refine Exact.congr
        (Exact.bind partyOf (by grind [partyOf]) (exact_vectorOr (short len) 32) fun sender =>
          Exact.bind recipientOf (by grind [recipientOf]) (exact_vectorOr (short len) 32)
            fun recipient =>
          Exact.bind amountOf (by grind [amountOf]) (exact_u64be (short len)) fun amount =>
          Exact.bind payloadOf (by grind [payloadOf]) (exact_varbytes len) fun payload =>
          Exact.pure (SettlementOp.transfer sender recipient amount payload)) (fun op => ?_)
        (fun op hop => ?_)
      · cases op <;> simp [SettlementOp.tag, partyOf, recipientOf, amountOf, payloadOf, OpFits]
      · rw [hop.2.2.2.2, List.append_nil]
        rfl
    · refine Exact.congr
        (Exact.bind partyOf (by grind [partyOf]) (exact_vectorOr (short len) 32) fun bidder =>
          Exact.bind textOf (by grind [textOf]) (exact_varstr len) fun item =>
          Exact.bind amountOf (by grind [amountOf]) (exact_u64be (short len)) fun amount =>
          Exact.pure (SettlementOp.auctionBid bidder item amount)) (fun op => ?_) (fun op hop => ?_)
      · cases op <;> simp [SettlementOp.tag, partyOf, textOf, amountOf, OpFits]
      · rw [hop.2.2.2, List.append_nil]
        rfl
    · refine Exact.congr
        (Exact.bind partyOf (by grind [partyOf]) (exact_vectorOr (short len) 32) fun actor =>
          Exact.bind textOf (by grind [textOf]) (exact_varstr len) fun kind =>
          Exact.bind rankOf (by grind [rankOf]) (exact_u32be (short len)) fun rank =>
          Exact.bind payloadOf (by grind [payloadOf]) (exact_varbytes len) fun payload =>
          Exact.pure (SettlementOp.rankedAction actor kind rank payload)) (fun op => ?_)
        (fun op hop => ?_)
      · cases op <;> simp [SettlementOp.tag, partyOf, textOf, rankOf, payloadOf, OpFits]
      · rw [hop.2.2.2.2, List.append_nil]
        rfl
    · next h1 h2 h3 =>
      refine exact_throw _ fun op hop => ?_
      cases op
      · exact h1 hop.1.symm
      · exact h2 hop.1.symm
      · exact h3 hop.1.symm
  refine htagged.congr (fun _ => Iff.rfl) fun op _ => ?_
  cases op <;> rfl

theorem exact_decodeBlockBody : Exact (decodeBlockBody len) encodeBlock BlockFits := by
  refine Exact.congr
    (Exact.bind Block.height (by grind) (exact_u64be (short len)) fun height =>
      Exact.bind Block.proposer (by grind) (exact_vectorOr (short len) 32) fun proposer =>
      Exact.bind Block.parentHash (by grind) (exact_vectorOr (short len) 32) fun parentHash =>
      Exact.bind Block.finality (by grind) (exact_decodeFinality len) fun finality =>
      Exact.bind (fun b : Block => UInt32.ofNat b.ops.length) (by grind [UInt32.ofNat_toNat])
        (exact_u32be (short len)) fun nOps =>
      Exact.bind Block.ops (by grind) ((exact_decodeOp len).many nOps.toNat) fun ops =>
      Exact.pure (Block.mk height proposer parentHash ops finality)) (fun b => ?_) (fun b hb => ?_)
  · have hnat : b.ops.length < 2 ^ 32 ↔ b.ops.length = (UInt32.ofNat b.ops.length).toNat := by
      rw [UInt32.toNat_ofNat']
      omega
    simp only [true_and, and_true, BlockFits, hnat]
  · obtain ⟨-, -, -, -, -, ⟨hlen, -⟩, -⟩ := hb
    rw [encodeBlock, lenBytes, ← hlen, List.append_nil]

theorem exact_decodeEnvelopeBody : Exact (decodeEnvelopeBody len) encodeEnvelope
    (fun e => EnvelopeFits e ∧ Topic.fromStr e.topic.asStr = e.topic) := by
  refine Exact.congr
    (Exact.bind (fun e => e.topic.asStr) (by grind [Topic.asStr_fromStr])
      (exact_varstr len) fun topic =>
      Exact.bind Envelope.sender (by grind) (exact_vectorOr (short len) 32) fun sender =>
      Exact.bind Envelope.addressee (by grind) (exact_decodeTo len) fun addressee =>
      Exact.bind Envelope.payload (by grind) (exact_varbytes len) fun payload =>
      Exact.bind Envelope.seq (by grind) (exact_u64be (short len)) fun seq =>
      Exact.bind Envelope.sig (by grind) (exact_vectorOr (short len) 64) fun sig =>
      Exact.pure (Envelope.mk (Topic.fromStr topic) sender addressee payload seq sig)) (fun e => ?_)
      (fun e _ => ?_)
  · obtain ⟨topic, sender, addressee, payload, seq, sig⟩ := e
    simp only [true_and, EnvelopeFits, Envelope.mk.injEq, and_true]
    constructor
    · rintro ⟨htopic, hpayload, heq⟩
      exact ⟨⟨htopic, hpayload⟩, heq.symm⟩
    · rintro ⟨⟨htopic, hpayload⟩, heq⟩
      exact ⟨htopic, hpayload, heq.symm⟩
  · simp only [encodeEnvelope, List.append_nil]

end Exactness

end P2P333.Wire333
