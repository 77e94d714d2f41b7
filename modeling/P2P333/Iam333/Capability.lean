import P2P333.Consensus333.Basic
import P2P333.Lib.Slides
import P2P333.Lib.Text

/-!
# Capability tokens

`333-iam/src/capability.rs`: tokens that delegate capabilities, the bytes that their issuers sign,
and the verifier that remembers nonces. The lock is held for each call. Ed25519 is a parameter.

The bytes are the issuer, the audience, the delegatee, the capabilities with a comma after each, the
window and the nonce, with a bar between any two of them. Audiences and capabilities may hold bars
and commas.

Results:
1. `eq_or_confusable`: which grants have the same bytes.
2. `granted_iff`: when every token that is accepted grants what was signed.
-/

namespace P2P333.Iam333

open Lib Consensus333

/-! ## Tokens -/

/-- Why a token does not grant an action. -/
inductive CapabilityError where
  | invalidSignature
  | expired (expiredAtMs nowMs : UInt64)
  | audienceMismatch (tokenAud service : String)
  | nonceReplay (nonce : String)
  | insufficientCapability (need : String) (granted : List String)
deriving DecidableEq

/-- What an issuer signs. -/
structure Grant where
  issuer : NodeId
  audience : String
  delegatee : NodeId
  capabilities : List String
  notBeforeMs : UInt64
  expiresAtMs : UInt64
  nonce : String
deriving DecidableEq

structure CapabilityToken extends Grant where
  sig : Signature
deriving DecidableEq

/-- `b'|'`. -/
def bar : UInt8 := 124

/-- `b','`. -/
def comma : UInt8 := 44

/-- A comma after each capability. -/
def joined (capabilities : List String) : Bytes := capabilities.flatMap fun c => utf8 c ++ [comma]

def canonicalBytes (issuer : NodeId) (audience : String) (delegatee : NodeId)
    (capabilities : List String) (notBeforeMs expiresAtMs : UInt64) (nonce : String) : Bytes :=
  issuer.toList ++ [bar] ++ utf8 audience ++ [bar] ++ delegatee.toList ++ [bar] ++
    joined capabilities ++ [bar] ++ beBytes 8 notBeforeMs.toNat ++ beBytes 8 expiresAtMs.toNat ++
    [bar] ++ utf8 nonce

def Grant.bytes (g : Grant) : Bytes :=
  canonicalBytes g.issuer g.audience g.delegatee g.capabilities g.notBeforeMs g.expiresAtMs g.nonce

/-! ## The verifier -/

/-- The nonces that were seen, each with the time at which its token expires. -/
structure InMemoryVerifier where
  seenNonces : String → Option UInt64

namespace InMemoryVerifier

def new : InMemoryVerifier := ⟨fun _ => none⟩

def purgeExpired (v : InMemoryVerifier) (nowMs : UInt64) : InMemoryVerifier :=
  ⟨fun nonce => (v.seenNonces nonce).filter fun exp => nowMs < exp⟩

/-- The nonce is remembered before the capability and the signature are checked. -/
def verify [Ed25519] (v : InMemoryVerifier) (token : CapabilityToken) (service required : String)
    (nowMs : UInt64) : Except CapabilityError Unit × InMemoryVerifier :=
  if token.audience ≠ service then (.error (.audienceMismatch token.audience service), v)
  else if nowMs < token.notBeforeMs ∨ token.expiresAtMs ≤ nowMs then
    (.error (.expired token.expiresAtMs nowMs), v)
  else if (v.seenNonces token.nonce).isSome then (.error (.nonceReplay token.nonce), v)
  else
    let v := ⟨Function.update v.seenNonces token.nonce (some token.expiresAtMs)⟩
    if required ∉ token.capabilities then
      (.error (.insufficientCapability required token.capabilities), v)
    else if Ed25519.verify token.issuer token.bytes token.sig then (.ok (), v)
    else (.error .invalidSignature, v)

end InMemoryVerifier

/-! ## Grants with the same bytes -/

namespace Grant

/-- What stands between the capabilities and the nonce. -/
def window (g : Grant) : Bytes :=
  bar :: (beBytes 8 g.notBeforeMs.toNat ++ beBytes 8 g.expiresAtMs.toNat ++ [bar])

/-- What stands between the audience and the nonce. -/
def header (g : Grant) : Bytes :=
  bar :: (g.delegatee.toList ++ bar :: (joined g.capabilities ++ g.window))

/-- How a grant can have the bytes of another one. -/
inductive Confusable (g g' : Grant) : Prop
  /-- The capabilities are cut at other commas. -/
  | regrouped (issuer : g.issuer = g'.issuer) (audience : g.audience = g'.audience)
      (delegatee : g.delegatee = g'.delegatee) (window : g.window = g'.window)
      (nonce : g.nonce = g'.nonce) (joined : joined g.capabilities = joined g'.capabilities)
      (different : g.capabilities ≠ g'.capabilities)
  /-- The capabilities of the one run into the window of the other. -/
  | widened (issuer : g.issuer = g'.issuer) (audience : g.audience = g'.audience)
      (delegatee : g.delegatee = g'.delegatee)
      (slides : Slides (Iam333.joined g.capabilities) g.window (utf8 g.nonce)
        (Iam333.joined g'.capabilities) g'.window (utf8 g'.nonce))
  /-- The audience of the one runs into the delegatee of the other. -/
  | moved (issuer : g.issuer = g'.issuer)
      (slides : Slides (utf8 g.audience) g.header (utf8 g.nonce) (utf8 g'.audience) g'.header
        (utf8 g'.nonce))

theorem bytes_eq (g : Grant) :
    g.bytes = g.issuer.toList ++ bar :: (utf8 g.audience ++ (g.header ++ utf8 g.nonce)) := by
  simp only [bytes, canonicalBytes, header, window, List.append_assoc, List.cons_append,
    List.nil_append]

variable {g g' : Grant}

theorem Confusable.bytes_eq (h : Confusable g g') : g.bytes = g'.bytes := by
  rw [Grant.bytes_eq, Grant.bytes_eq]
  cases h with
  | regrouped hissuer haudience hdelegatee hwindow hnonce hjoined =>
    rw [header, header, hissuer, haudience, hdelegatee, hwindow, hnonce, hjoined]
  | widened hissuer haudience hdelegatee hslides =>
    have heq := hslides.append_eq
    rw [header, header, hissuer, haudience, hdelegatee]
    simp only [List.cons_append, List.append_assoc, heq]
  | moved hissuer hslides => rw [hissuer, hslides.append_eq]

theorem Confusable.ne (h : Confusable g g') : g ≠ g' := by
  rintro rfl
  cases h with
  | regrouped _ _ _ _ _ _ hdifferent => exact hdifferent rfl
  | widened _ _ _ hslides => exact hslides.ne (List.cons_ne_nil _ _) rfl
  | moved _ hslides => exact hslides.ne (List.cons_ne_nil _ _) rfl

theorem id_inj {i j : NodeId} {x y : Bytes} (h : i.toList ++ x = j.toList ++ y) :
    i = j ∧ x = y := by
  obtain ⟨hid, hrest⟩ := List.append_inj h (by rw [i.toList_length, j.toList_length])
  exact ⟨List.Vector.eq i j hid, hrest⟩

/-- The window has a fixed width. -/
theorem window_inj {x y : Bytes} (h : g.window ++ x = g'.window ++ y) :
    g.notBeforeMs = g'.notBeforeMs ∧ g.expiresAtMs = g'.expiresAtMs ∧ x = y := by
  simp only [window, List.cons_append, List.append_assoc, List.cons.injEq, true_and,
    List.nil_append] at h
  obtain ⟨hbefore, h⟩ := beBytes_u64_inj h
  obtain ⟨hexpires, h⟩ := beBytes_u64_inj h
  exact ⟨hbefore, hexpires, (List.cons.inj h).2⟩

/-- Grants with the same bytes are the same, or the one can be taken for the other. -/
theorem eq_or_confusable (h : g.bytes = g'.bytes) : g = g' ∨ Confusable g g' ∨ Confusable g' g := by
  rw [Grant.bytes_eq, Grant.bytes_eq] at h
  obtain ⟨hissuer, h⟩ := id_inj h
  rcases eq_or_slides (List.cons.inj h).2 with ⟨haudience, h⟩ | hslides | hslides
  · rw [header, header] at h
    simp only [List.cons_append, List.append_assoc, List.cons.injEq, true_and] at h
    obtain ⟨hdelegatee, h⟩ := id_inj h
    have haudience := utf8_injective haudience
    rcases eq_or_slides (List.cons.inj h).2 with ⟨hjoined, h⟩ | hslides | hslides
    · obtain ⟨hbefore, hexpires, hnonce⟩ := window_inj h
      have hnonce := utf8_injective hnonce
      by_cases hcaps : g.capabilities = g'.capabilities
      · obtain ⟨issuer, audience, delegatee, capabilities, notBefore, expires, nonce⟩ := g
        simp only at hissuer haudience hdelegatee hcaps hbefore hexpires hnonce
        rw [hissuer, haudience, hdelegatee, hcaps, hbefore, hexpires, hnonce]
        exact .inl rfl
      · refine .inr (.inl (.regrouped hissuer haudience hdelegatee ?_ hnonce hjoined hcaps))
        rw [window, window, hbefore, hexpires]
    · exact .inr (.inl (.widened hissuer haudience hdelegatee hslides))
    · exact .inr (.inr (.widened hissuer.symm haudience.symm hdelegatee.symm hslides))
  · exact .inr (.inl (.moved hissuer hslides))
  · exact .inr (.inr (.moved hissuer.symm hslides))

end Grant

/-! ## What is granted -/

section Granted

variable [Ed25519]

theorem verify_eq_ok {v : InMemoryVerifier} {token : CapabilityToken} {service required : String}
    {nowMs : UInt64} : (v.verify token service required nowMs).1 = .ok () ↔
      token.audience = service ∧ token.notBeforeMs ≤ nowMs ∧ nowMs < token.expiresAtMs ∧
        v.seenNonces token.nonce = none ∧ required ∈ token.capabilities ∧
          Ed25519.verify token.issuer token.bytes token.sig = true := by
  unfold InMemoryVerifier.verify
  split_ifs with haudience hwindow hseen hrequired hsig
  · simp [haudience]
  · refine iff_of_false nofun fun ⟨_, hbefore, hexpires, _⟩ => ?_
    exact hwindow.elim (fun h => UInt64.not_lt.mpr hbefore h) fun h => UInt64.not_lt.mpr h hexpires
  · refine iff_of_false nofun fun ⟨_, _, _, hnone, _⟩ => ?_
    rw [hnone] at hseen
    cases hseen
  · rw [not_or, UInt64.not_lt, UInt64.not_le] at hwindow
    exact iff_of_true rfl ⟨not_not.mp haudience, hwindow.1, hwindow.2,
      Option.not_isSome_iff_eq_none.mp hseen, hrequired, hsig⟩
  · exact iff_of_false nofun fun ⟨_, _, _, _, _, hgood⟩ => hsig hgood
  · exact iff_of_false nofun fun ⟨_, _, _, _, hgranted, _⟩ => hrequired hgranted

/-- Nobody can make a signature under the key of another: the bytes of whatever verifies were
signed. -/
def Unforgeable (signed : Set Grant) : Prop :=
  ∀ (g : Grant) (sig : Signature), Ed25519.verify g.issuer g.bytes sig = true →
    ∃ o ∈ signed, o.bytes = g.bytes

/-- Two grants with the same bytes are the same unless the one can be taken for the other. And all
that is accepted was granted unless a grant that was signed can be taken for one that was not, which
has a capability and a window. -/
theorem granted_iff (signed : Set Grant)
    (hsigned : ∀ o ∈ signed, ∃ sig, Ed25519.verify o.issuer o.bytes sig = true)
    (hunforgeable : Unforgeable signed) :
    (∀ g g' : Grant, (g.bytes = g'.bytes → g = g') ↔
      ¬ g.Confusable g' ∧ ¬ g'.Confusable g) ∧
    ((∀ (v : InMemoryVerifier) (token : CapabilityToken) (service required : String)
      (nowMs : UInt64),
        (v.verify token service required nowMs).1 = .ok () → token.toGrant ∈ signed) ↔
      ∀ o ∈ signed, ∀ g : Grant, o.Confusable g ∨ g.Confusable o → g.capabilities ≠ [] →
        g.notBeforeMs < g.expiresAtMs → g ∈ signed) := by
  refine ⟨fun g g' => ⟨fun h => ⟨fun hc => hc.ne (h hc.bytes_eq), fun hc => ?_⟩,
    fun ⟨hnot, hnot'⟩ hbytes => ?_⟩, fun h o ho g hc hcaps hwindow => ?_,
    fun h v token service required nowMs hok => ?_⟩
  · exact hc.ne (h hc.bytes_eq.symm).symm
  · exact (Grant.eq_or_confusable hbytes).resolve_right (not_or.mpr ⟨hnot, hnot'⟩)
  · -- The signature of the one is put on the other.
    have hbytes : o.bytes = g.bytes := hc.elim (·.bytes_eq) (·.bytes_eq.symm)
    obtain ⟨sig, hsig⟩ := hsigned o ho
    have hissuer : o.issuer = g.issuer := by
      rw [Grant.bytes_eq, Grant.bytes_eq] at hbytes
      exact (Grant.id_inj hbytes).1
    rw [hissuer, hbytes] at hsig
    obtain ⟨required, hrequired⟩ := List.exists_mem_of_ne_nil _ hcaps
    exact h .new ⟨g, sig⟩ g.audience required g.notBeforeMs
      (verify_eq_ok.mpr ⟨rfl, UInt64.le_refl _, hwindow, rfl, hrequired, hsig⟩)
  · obtain ⟨-, hbefore, hexpires, -, hrequired, hsig⟩ := verify_eq_ok.mp hok
    obtain ⟨o, ho, hbytes⟩ := hunforgeable _ _ hsig
    rcases Grant.eq_or_confusable hbytes with heq | hc
    · rwa [← heq]
    · exact h o ho _ hc (List.ne_nil_of_mem hrequired) (UInt64.lt_of_le_of_lt hbefore hexpires)

end Granted

namespace Demo

/-- One capability, whose name has a comma in it. -/
def narrow : Grant :=
  ⟨.replicate 32 7, "service", .replicate 32 9, ["read,admin"], 0, 10000, "nonce-1"⟩

/-- Two capabilities. -/
def wide : Grant := { narrow with capabilities := ["read", "admin"] }

theorem confusable_wide : narrow.Confusable wide :=
  .regrouped rfl rfl rfl rfl rfl (by decide +kernel) (by decide)

/-- A signature for the one capability is good for two, and grants the second. -/
theorem capability_added : ¬ (∀ g g' : Grant, g.bytes = g'.bytes → g = g') ∧
    ∀ [Ed25519] (sig : Signature), Ed25519.verify narrow.issuer narrow.bytes sig = true →
      (InMemoryVerifier.new.verify ⟨wide, sig⟩ "service" "admin" 100).1 = .ok () := by
  have hbytes : narrow.bytes = wide.bytes := confusable_wide.bytes_eq
  refine ⟨fun hpins => confusable_wide.ne (hpins narrow wide hbytes), fun sig hsig => ?_⟩
  rw [hbytes] at hsig
  exact verify_eq_ok.mpr ⟨rfl, show (0 : UInt64) ≤ 100 by decide, show
    (100 : UInt64) < 10000 by decide,
    rfl, show "admin" ∈ ["read", "admin"] by decide, hsig⟩

/-- Only the signature of the narrow grant is good. -/
@[reducible] def oneSignature : Ed25519 where
  publicKey _ := .replicate 32 7
  sign _ _ := .replicate 64 0
  verify key msg _ := key == .replicate 32 7 && msg == narrow.bytes

attribute [local instance] oneSignature

/-- The wide token is accepted although only the narrow grant was signed. -/
theorem granted_iff_narrow : ¬ ∀ (v : InMemoryVerifier) (token : CapabilityToken)
    (service required : String) (nowMs : UInt64),
      (v.verify token service required nowMs).1 = .ok () → token.toGrant ∈
        ({narrow} : Set Grant) := by
  intro h
  have hsigned : ∀ o ∈ ({narrow} : Set Grant), ∃ sig,
    Ed25519.verify o.issuer o.bytes sig = true := by
    rintro o rfl
    exact ⟨.replicate 64 0, by simp [Ed25519.verify, narrow]⟩
  have hunforgeable : Unforgeable {narrow} := by
    intro g sig hg
    simp only [Ed25519.verify, Bool.and_eq_true, beq_iff_eq] at hg
    exact ⟨narrow, rfl, hg.2.symm⟩
  have hwide := (granted_iff {narrow} hsigned hunforgeable).2.mp h narrow rfl wide
    (.inl confusable_wide) (by decide) (by decide)
  exact confusable_wide.ne hwide.symm

end Demo

end P2P333.Iam333
