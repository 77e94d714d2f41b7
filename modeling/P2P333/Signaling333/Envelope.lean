import P2P333.Consensus333.Basic
import P2P333.Lib.Slides
import P2P333.Lib.Text

/-!
# Signaling envelopes

`333-signaling/src/lib.rs`: topics, envelopes and the bytes that their senders sign.

The bytes are the topic, the sender, the addressee if there is one, the number and the payload, with
a zero byte between any two of them. Nothing says whether there is an addressee, and a topic may
hold zero bytes.

Results:
1. `pinned_iff`: which envelopes of one sender have the same bytes.
-/

namespace P2P333.Signaling333

open Lib Consensus333

/-- Why an envelope is not handled. -/
inductive SignalingError where
  | unknownTopic (topic : String)
  | badSignature
  | peerBanned (peer : NodeId)
  | invalid (reason : String)
deriving DecidableEq

/-! ## Topics -/

/-- What an envelope is about. -/
inductive Topic where
  | offer | answer | ice
  | custom (s : String)
deriving DecidableEq

namespace Topic

def asStr : Topic → String
  | offer => "/333/offer"
  | answer => "/333/answer"
  | ice => "/333/ice"
  | custom s => s

def fromStr (s : String) : Topic :=
  if s = "/333/offer" then offer
  else if s = "/333/answer" then answer
  else if s = "/333/ice" then ice
  else custom s

@[simp] theorem asStr_fromStr (s : String) : (fromStr s).asStr = s := by
  unfold fromStr
  split_ifs with h h h <;> first | exact h.symm | rfl

end Topic

/-! ## Envelopes -/

structure Envelope where
  topic : Topic
  sender : NodeId
  addressee : Option NodeId
  payload : Bytes
  seq : UInt64
  sig : Signature
deriving DecidableEq

namespace Envelope

def canonicalBytes (topic : Topic) (sender : NodeId) (addressee : Option NodeId) (payload : Bytes)
    (seq : UInt64) : Bytes :=
  utf8 topic.asStr ++ [0] ++ sender.toList ++ [0] ++
    (match addressee with
      | some t => t.toList
      | none => []) ++ [0] ++ beBytes 8 seq.toNat ++ [0] ++ payload

/-- The bytes of an envelope. -/
def bytes (e : Envelope) : Bytes :=
  canonicalBytes e.topic e.sender e.addressee e.payload e.seq

section Signatures

variable [Ed25519]

def sign (secret : List.Vector UInt8 32) (topic : Topic) (addressee : Option NodeId)
    (payload : Bytes)
    (seq : UInt64) : Envelope :=
  let sender := Ed25519.publicKey secret
  ⟨topic, sender, addressee, payload, seq,
    Ed25519.sign secret (canonicalBytes topic sender addressee payload seq)⟩

def verify (e : Envelope) : Except SignalingError Unit :=
  if Ed25519.verify e.sender e.bytes e.sig then .ok () else .error .badSignature

theorem verify_eq_ok {e : Envelope} :
    e.verify = .ok () ↔ Ed25519.verify e.sender e.bytes e.sig = true := by
  unfold verify
  split <;> simp_all

end Signatures

/-- What a signature is meant to pin, next to the sender. -/
structure Agrees (e e' : Envelope) : Prop where
  topic : e.topic.asStr = e'.topic.asStr
  addressee : e.addressee = e'.addressee
  seq : e.seq = e'.seq
  payload : e.payload = e'.payload

/-- What stands between the topic and the payload. -/
def header (e : Envelope) : Bytes :=
  0 :: (e.sender.toList ++ 0 :: ((match e.addressee with
    | some t => t.toList
    | none => []) ++ 0 :: (beBytes 8 e.seq.toNat ++ [0])))

/-- How an envelope can have the bytes of another one, whose topic is not shorter. -/
inductive Confusable (e e' : Envelope) : Prop
  /-- The addressee of the one is the number and part of the payload of the other, which has none.
  -/
  | addressed {x : NodeId} {y : Bytes} (topic : e.topic.asStr = e'.topic.asStr)
      (none : e.addressee = none) (some : e'.addressee = some x)
      (id : x.toList = 0 :: (beBytes 8 e.seq.toNat ++ 0 :: y))
      (payload : e.payload = y ++ 0 :: (beBytes 8 e'.seq.toNat ++ 0 :: e'.payload))
  /-- The longer topic holds the header of the other envelope, or ends inside it. -/
  | moved (slides : Slides (utf8 e.topic.asStr) e.header e.payload (utf8 e'.topic.asStr) e'.header
      e'.payload)

theorem bytes_eq (e : Envelope) : e.bytes = utf8 e.topic.asStr ++ (e.header ++ e.payload) := by
  simp only [bytes, canonicalBytes, header, List.append_assoc, List.cons_append, List.nil_append]

theorem header_ne_nil (e : Envelope) : e.header ≠ [] := List.cons_ne_nil _ _

variable {e e' : Envelope}

theorem Confusable.bytes_eq (hsender : e.sender = e'.sender) (h : Confusable e e') :
    e.bytes = e'.bytes := by
  rw [Envelope.bytes_eq, Envelope.bytes_eq]
  cases h with
  | addressed htopic hnone hsome hid hpayload =>
    rw [htopic, header, header, hnone, hsome, hsender, hpayload]
    simp only [hid, List.cons_append, List.append_assoc, List.nil_append]
  | moved hslides => exact hslides.append_eq

theorem Confusable.not_agrees (h : Confusable e e') : ¬ e.Agrees e' := by
  intro hagrees
  cases h with
  | addressed _ hnone hsome =>
    rw [hagrees.addressee, hsome] at hnone
    cases hnone
  | moved hslides => exact hslides.ne (header_ne_nil e) (congrArg utf8 hagrees.topic)

/-- An addressee where the other envelope has none. -/
theorem confusable_of_none {x : NodeId} (htopic : e.topic.asStr = e'.topic.asStr)
    (hnone : e.addressee = none) (hsome : e'.addressee = some x)
    (h : 0 :: (beBytes 8 e.seq.toNat ++ 0 :: e.payload) =
      x.toList ++ 0 :: (beBytes 8 e'.seq.toNat ++ 0 :: e'.payload)) : Confusable e e' := by
  have hlen : (0 :: (beBytes 8 e.seq.toNat ++ [0])).length < x.toList.length := by
    rw [x.toList_length, List.length_cons, List.length_append, length_beBytes]
    decide
  have hsplit : 0 :: (beBytes 8 e.seq.toNat ++ 0 :: e.payload) =
      (0 :: (beBytes 8 e.seq.toNat ++ [0])) ++ e.payload := by
    rw [List.cons_append, List.append_assoc, List.singleton_append]
  rw [hsplit] at h
  obtain ⟨y, hx, hpayload⟩ :=
    (List.append_eq_append_iff.mp h).resolve_right fun ⟨c, hc, hrest⟩ => by
    have hc := congrArg List.length hc
    rw [List.length_append] at hc
    omega
  refine .addressed (y := y) htopic hnone hsome ?_ hpayload
  rw [hx, List.cons_append, List.append_assoc, List.singleton_append]

/-- Envelopes with the same topic. -/
theorem agrees_or_addressed (hsender : e.sender = e'.sender)
    (htopic : e.topic.asStr = e'.topic.asStr)
      (h : e.header ++ e.payload = e'.header ++ e'.payload) :
    e.Agrees e' ∨ Confusable e e' ∨ Confusable e' e := by
  have hwidth : ∀ n m : UInt64, (beBytes 8 n.toNat).length = (beBytes 8 m.toNat).length :=
    fun n m => by
    rw [length_beBytes, length_beBytes]
  have hagrees : ∀ rest, beBytes 8 e.seq.toNat ++ 0 :: e.payload = rest →
      rest = beBytes 8 e'.seq.toNat ++ 0 :: e'.payload → e.addressee = e'.addressee →
        e.Agrees e' := by
    rintro rest h h' ha
    obtain ⟨hseq, hrest⟩ := List.append_inj (h.trans h') (hwidth _ _)
    exact ⟨htopic, ha, (beBytes_u64_inj (congrArg (· ++ []) hseq)).1, (List.cons.inj hrest).2⟩
  rw [header, header, hsender] at h
  simp only [List.cons_append, List.append_assoc, List.cons.injEq, List.append_cancel_left_eq,
    true_and, List.nil_append] at h
  cases ha : e.addressee with
  | none =>
    cases ha' : e'.addressee with
    | none =>
      simp only [ha, ha', List.nil_append, List.cons.injEq, true_and] at h
      exact .inl (hagrees _ h rfl (ha.trans ha'.symm))
    | some x =>
      simp only [ha, ha', List.nil_append] at h
      exact .inr (.inl (confusable_of_none htopic ha ha' h))
  | some x =>
    cases ha' : e'.addressee with
    | none =>
      simp only [ha, ha', List.nil_append] at h
      exact .inr (.inr (confusable_of_none htopic.symm ha' ha h.symm))
    | some x' =>
      simp only [ha, ha'] at h
      obtain ⟨hx, hrest⟩ := List.append_inj h (by rw [x.toList_length, x'.toList_length])
      exact .inl (hagrees _ (List.cons.inj hrest).2 rfl
        (by rw [ha, ha', List.Vector.eq x x' hx]))

/-- Envelopes of one sender with the same bytes have the same fields or can be taken for one
another. -/
theorem agrees_or_confusable (hsender : e.sender = e'.sender) (h : e.bytes = e'.bytes) :
    e.Agrees e' ∨ Confusable e e' ∨ Confusable e' e := by
  rw [Envelope.bytes_eq, Envelope.bytes_eq] at h
  rcases eq_or_slides h with ⟨htopic, hrest⟩ | hslides | hslides
  · exact agrees_or_addressed hsender (utf8_injective htopic) hrest
  · exact .inr (.inl (.moved hslides))
  · exact .inr (.inr (.moved hslides))

end Envelope

/-! ## What a signature pins -/

section Signatures

open Envelope

variable [Ed25519]

/-- Nobody can make a signature under the key of another: whatever verifies has the bytes of an
envelope that its sender signed. -/
def Unforgeable (signed : Set Envelope) : Prop :=
  ∀ e : Envelope, e.verify = .ok () → ∃ o ∈ signed, o.sender = e.sender ∧ o.bytes = e.bytes

/-- Two envelopes of one sender with the same bytes have the same fields unless the one can be taken
for the other. And all that verifies has the fields of what was signed unless something signed can
be taken for something that nobody signed. -/
theorem pinned_iff (signed : Set Envelope) (hsigned : ∀ o ∈ signed, o.verify = .ok ())
    (hunforgeable : Unforgeable signed) :
    (∀ e e' : Envelope, e.sender = e'.sender →
      ((e.bytes = e'.bytes → e.Agrees e') ↔ ¬ Confusable e e' ∧ ¬ Confusable e' e)) ∧
    ((∀ e : Envelope, e.verify = .ok () → ∃ o ∈ signed, o.sender = e.sender ∧ o.Agrees e) ↔
      ∀ o ∈ signed, ∀ e : Envelope, o.sender = e.sender → Confusable o e ∨ Confusable e o →
        ∃ o' ∈ signed, o'.sender = e.sender ∧ o'.Agrees e) := by
  refine ⟨fun e e' hsender =>
    ⟨fun h => ⟨fun hc => ?_, fun hc => ?_⟩, fun ⟨hnot, hnot'⟩ hbytes => ?_⟩,
    fun h o ho e hsender hc => ?_, fun h e hverify => ?_⟩
  · exact hc.not_agrees (h (hc.bytes_eq hsender))
  · have hagrees := h (hc.bytes_eq hsender.symm).symm
    exact hc.not_agrees ⟨hagrees.topic.symm, hagrees.addressee.symm, hagrees.seq.symm,
      hagrees.payload.symm⟩
  · rcases agrees_or_confusable hsender hbytes with hagrees | hc | hc
    · exact hagrees
    · exact absurd hc hnot
    · exact absurd hc hnot'
  · -- The signature of the one is put on the other.
    have hbytes : o.bytes = e.bytes :=
      hc.elim (fun hc => hc.bytes_eq hsender) fun hc => (hc.bytes_eq hsender.symm).symm
    have hforged : ({ e with sig := o.sig } : Envelope).verify = .ok () := by
      rw [verify_eq_ok]
      have ho := verify_eq_ok.mp (hsigned o ho)
      rw [hsender, hbytes] at ho
      exact ho
    obtain ⟨o', ho', hsender', hagrees⟩ := h _ hforged
    exact ⟨o', ho', hsender', hagrees.topic, hagrees.addressee, hagrees.seq, hagrees.payload⟩
  · obtain ⟨o, ho, hsender, hbytes⟩ := hunforgeable e hverify
    rcases agrees_or_confusable hsender hbytes with hagrees | hc
    · exact ⟨o, ho, hsender, hagrees⟩
    · exact h o ho e hsender hc

end Signatures

namespace Demo

/-- An id that starts with a zero byte, the number 1 and a zero byte. -/
def oddId : NodeId := ⟨0 :: (beBytes 8 1 ++ 0 :: List.replicate 22 0), rfl⟩

/-- An offer to all. -/
def toAll : Envelope :=
  ⟨.offer, .replicate 32 7, none, List.replicate 22 0 ++ 0 :: (beBytes 8 2 ++ [0, 42]), 1,
    .replicate 64 0⟩

/-- An offer to one peer, with another number and another payload. -/
def toOdd : Envelope := ⟨.offer, .replicate 32 7, some oddId, [42], 2, .replicate 64 0⟩

theorem confusable : Envelope.Confusable toAll toOdd :=
  .addressed (y := List.replicate 22 0) rfl rfl rfl rfl rfl

/-- The two offers have the same bytes, so that a signature of the one is good for the other. -/
theorem signature_moves :
    ¬ (∀ e e' : Envelope, e.sender = e'.sender → e.bytes = e'.bytes → e.Agrees e') ∧
      ∀ [Ed25519], toAll.verify = .ok () → toOdd.verify = .ok () := by
  have hbytes : toAll.bytes = toOdd.bytes := confusable.bytes_eq rfl
  constructor
  · intro hpins
    cases (hpins toAll toOdd rfl hbytes).addressee
  · intro _ hverify
    rw [Envelope.verify_eq_ok] at hverify ⊢
    rw [← hbytes]
    exact hverify

/-- Only the signature of the offer to all is good. -/
@[reducible] def oneSignature : Ed25519 where
  publicKey _ := .replicate 32 7
  sign _ _ := .replicate 64 0
  verify key msg _ := key == .replicate 32 7 && msg == toAll.bytes

attribute [local instance] oneSignature

/-- The offer to one peer verifies although only the offer to all was signed. -/
theorem pinned_iff_toAll : ¬ ∀ e : Envelope, e.verify = .ok () →
    ∃ o ∈ ({toAll} : Set Envelope), o.sender = e.sender ∧ o.Agrees e := by
  intro h
  have hsigned : ∀ o ∈ ({toAll} : Set Envelope), o.verify = .ok () := by
    rintro o rfl
    rw [Envelope.verify_eq_ok]
    simp [Ed25519.verify, toAll]
  have hunforgeable : Unforgeable {toAll} := by
    intro e he
    rw [Envelope.verify_eq_ok] at he
    simp only [Ed25519.verify, Bool.and_eq_true, beq_iff_eq] at he
    exact ⟨toAll, rfl, he.1.symm, he.2.symm⟩
  obtain ⟨o, rfl, -, hagrees⟩ :=
    (pinned_iff {toAll} hsigned hunforgeable).2.mp h toAll rfl toOdd rfl
    (.inl confusable)
  cases hagrees.addressee

end Demo

end P2P333.Signaling333
