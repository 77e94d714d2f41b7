import P2P333.Transfer333.Codec.Wire
import P2P333.Transfer333.Recovery
import P2P333.TransferWasm333.ConfigText

/-!
# The browser verdict

`333-transfer-wasm/src/lib.rs`: keys from hexadecimal text, the policy and the committee of a pinned
config, and `verify_certificate_core`. Slices of a string count bytes, and one that ends within a
character panics. The text of an Ed25519 error is left out.

Results:
1. `hexDecode_eq_ok`, `hexDecode_eq_panic`: what is decoded, and where a slice cuts a character.
2. `core_eq_panic`, `core_eq_ok`: the same for the whole verdict.
3. `reports_iff`: the text of a verdict is JSON that says what the certificate says exactly when no
   account name holds a control character.
4. `verdict_faithful_iff`: the inputs on which the verdict is total and faithful.
-/

namespace P2P333.TransferWasm333

open Lib Transfer333

/-! ## Outcomes -/

/-- Where the verification of a certificate stops. -/
inductive VerdictError where
  | message (text : String)
  | ownerRegistry (e : OwnerRegistryError)
  | networkId (e : NetworkIdError)
  | certificate (e : WireError)
deriving DecidableEq

/-- How a call ends. -/
inductive Outcome (α : Type) where
  | ok (a : α)
  | err (e : VerdictError)
  | panic
deriving DecidableEq

namespace Outcome

variable {α β ε : Type}

def bind : Outcome α → (α → Outcome β) → Outcome β
  | .ok a, f => f a
  | .err e, _ => .err e
  | .panic, _ => .panic

instance : Monad Outcome where
  pure := .ok
  bind := bind

/-- A result that cannot panic. -/
def lift (f : ε → VerdictError) : Except ε α → Outcome α
  | .ok a => .ok a
  | .error e => .err (f e)

theorem bind_eq_ok {x : Outcome α} {f : α → Outcome β} {b : β} :
    (x >>= f) = .ok b ↔ ∃ a, x = .ok a ∧ f a = .ok b := by
  cases x with
  | ok a => exact ⟨fun h => ⟨a, rfl, h⟩, fun ⟨_, ha, h⟩ => by cases ha; exact h⟩
  | err e => exact ⟨fun h => (by cases h), fun ⟨_, ha, _⟩ => (by cases ha)⟩
  | panic => exact ⟨fun h => (by cases h), fun ⟨_, ha, _⟩ => (by cases ha)⟩

theorem bind_eq_panic {x : Outcome α} {f : α → Outcome β} :
    (x >>= f) = .panic ↔ x = .panic ∨ ∃ a, x = .ok a ∧ f a = .panic := by
  cases x with
  | ok a =>
    constructor
    · exact fun h => .inr ⟨a, rfl, h⟩
    · rintro (h | ⟨_, ha, h⟩)
      · cases h
      · cases ha
        exact h
  | err e =>
    constructor
    · intro h
      cases h
    · rintro (h | ⟨_, ha, _⟩)
      · cases h
      · cases ha
  | panic => exact iff_of_true rfl (.inl rfl)

theorem lift_eq_ok {f : ε → VerdictError} {x : Except ε α} {a : α} :
    lift f x = .ok a ↔ x = .ok a := by
  cases x <;> simp [lift]

theorem lift_ne_panic {f : ε → VerdictError} {x : Except ε α} : lift f x ≠ .panic := by
  cases x <;> simp [lift]

end Outcome

/-! ## Strings -/

/-- `len`, in bytes. -/
def utf8Len (s : Text) : Nat := (s.map Char.utf8Size).sum

/-- The string of the given characters; `none` where no allocation is large enough. -/
def toStr (s : Text) : Option Str :=
  if h : (String.ofList s).utf8ByteSize < 2 ^ 63 then some ⟨String.ofList s, h⟩ else none

/-- The first `n` bytes as a slice, and the rest; `none` where the slice would end within a
character or behind the string. -/
def takeBytes : Nat → Text → Option (Text × Text)
  | 0, s => some ([], s)
  | _ + 1, [] => none
  | n + 1, c :: s =>
    if c.utf8Size ≤ n + 1 then (takeBytes (n + 1 - c.utf8Size) s).map fun r => (c :: r.1, r.2)
    else none

/-! ## Hexadecimal text -/

def hexChar (n : Nat) : Char := if n < 10 then Char.ofNat (48 + n) else Char.ofNat (87 + n)

def hexEncode (bytes : Bytes) : Text :=
  bytes.flatMap fun b => [hexChar (b.toNat / 16), hexChar (b.toNat % 16)]

def radixDigits : Text → Nat → Except String UInt8
  | [], n => .ok (UInt8.ofNat n)
  | c :: s, n =>
    match Json.hexDigit c with
    | none => .error "invalid digit found in string"
    | some d =>
      if 255 < 16 * n + d then .error "number too large to fit in target type"
      else radixDigits s (16 * n + d)

/-- `u8::from_str_radix` at base 16. A leading plus sign is a sign. -/
def fromStrRadix16 : Text → Except String UInt8
  | [] => .error "cannot parse integer from empty string"
  | ['+'] => .error "invalid digit found in string"
  | '+' :: s => radixDigits s 0
  | s => radixDigits s 0

/-- The loop of `hex_decode`: `n` slices of two bytes. -/
def hexPairs : Nat → Text → Outcome Bytes
  | 0, _ => .ok []
  | n + 1, s =>
    match takeBytes 2 s with
    | none => .panic
    | some (slice, rest) =>
      match fromStrRadix16 slice with
      | .error e => .err (.message ("hex: " ++ e))
      | .ok b => do
        let bytes ← hexPairs n rest
        pure (b :: bytes)

def hexDecode (s : Text) : Outcome Bytes :=
  if utf8Len s % 2 ≠ 0 then .err (.message "hex: odd length") else hexPairs (utf8Len s / 2) s

def keyFromHex [KeyFormat] (s : Text) : Outcome VerifyingKey := do
  let raw ← hexDecode s
  if h : raw.length = 32 then
    match VerifyingKey.fromBytes ⟨raw, h⟩ with
    | none => .err (.message "bad public key")
    | some key => .ok key
  else .err (.message "public key must be 32 bytes")

/-! ## The verdict -/

/-- The loops of `policy` and `committee`: names with their keys, in order. -/
def bindings [KeyFormat] : List (Text × Text) → Outcome (List (Str × VerifyingKey))
  | [] => .ok []
  | (name, hex) :: es =>
    match toStr name with
    | none => .panic
    | some name => do
      let key ← keyFromHex hex
      let rest ← bindings es
      pure ((name, key) :: rest)

def Config.policy [KeyFormat] (cfg : Config) : Outcome TransferPolicy := do
  let owners ← bindings cfg.owners
  let registry ← .lift .ownerRegistry (OwnerRegistry.new owners)
  match toStr cfg.networkId with
  | none => .panic
  | some id => do
    let network ← .lift .networkId (NetworkId.new id)
    pure ⟨network, registry⟩

def Config.committee [KeyFormat] (cfg : Config) (policy : TransferPolicy) : Outcome Committee := do
  let members ← bindings cfg.authorities
  match Committee.new members policy with
  | none => .err (.message "committee: invalid roster")
  | some c => pure c

/-- `replace` of one character by a text. -/
def replaceChar (c : Char) (t s : Text) : Text := s.flatMap fun d => if d = c then t else [d]

def jsonEscape (s : Text) : Text := replaceChar '"' ['\\', '"'] (replaceChar '\\' ['\\', '\\'] s)

/-- The text that reports a verified transfer. -/
def report (t : Transfer) (size quorum : Nat) (orderId : Digest) : Text :=
  "\x7b\"verified\":true,\"from\":\"".toList ++ jsonEscape t.sender.text.toList ++
    "\",\"to\":\"".toList ++ jsonEscape t.recipient.text.toList ++
    "\",\"from_seq\":".toList ++ Nat.toDigits 10 t.fromSeq.toNat ++
    ",\"amount\":\"".toList ++ Nat.toDigits 10 t.amount.toNat ++
    "\",\"committee_size\":".toList ++ Nat.toDigits 10 size ++
    ",\"quorum\":".toList ++ Nat.toDigits 10 quorum ++
    ",\"order_id\":\"".toList ++ hexEncode orderId.toList ++ "\"\x7d".toList

def verifyCertificateCore [Crypto] [KeyFormat] (json : Str) (bytes : Bytes) : Outcome Text := do
  let cfg ← .lift .message (Config.parse json.text.toList)
  let policy ← cfg.policy
  let committee ← cfg.committee policy
  let cert ← .lift .certificate (decodeCertificate bytes)
  match cert.verify committee with
  | none => .err (.message "certificate did not verify against the pinned committee")
  | some verified =>
    pure (report verified.order.transfer committee.size committee.quorum verified.order.orderId)

/-! ## Reading hexadecimal text -/

/-- The text is made of pairs, two digits or a plus sign and a digit, that stand for the bytes. -/
inductive Pairs : Text → Bytes → Prop
  | nil : Pairs [] []
  | digits {a b : Char} {x y : Nat} {s : Text} {bs : Bytes} (ha : Json.hexDigit a = some x)
      (hb : Json.hexDigit b = some y) (h : Pairs s bs) :
      Pairs (a :: b :: s) (UInt8.ofNat (16 * x + y) :: bs)
  | plus {b : Char} {y : Nat} {s : Text} {bs : Bytes} (hb : Json.hexDigit b = some y)
      (h : Pairs s bs) : Pairs ('+' :: b :: s) (UInt8.ofNat y :: bs)

/-- Behind pairs only, two bytes end within a character. -/
inductive Cut : Text → Prop
  | wide {c : Char} {s : Text} (hc : 2 < c.utf8Size) : Cut (c :: s)
  | split {c d : Char} {s : Text} (hc : c.utf8Size = 1) (hd : 1 < d.utf8Size) : Cut (c :: d :: s)
  | behind {a b : Char} {n : UInt8} {s : Text} (hpair : Pairs [a, b] [n]) (h : Cut s) :
      Cut (a :: b :: s)

section Hex

variable {a b c : Char} {x y n : Nat} {s : Text} {bs : Bytes}

/-- A digit is one byte. -/
theorem utf8Size_of_hexDigit (h : Json.hexDigit c = some n) : c.utf8Size = 1 := by
  have hle := (Json.hexDigit_bounds h).2.2
  refine Char.utf8Size_eq_one_iff.mpr (UInt32.le_iff_toNat_le.mpr ?_)
  show c.toNat ≤ 127
  omega

theorem radixDigits_pair {v : UInt8} : radixDigits [a, b] 0 = .ok v ↔
    ∃ x y, Json.hexDigit a = some x ∧ Json.hexDigit b = some y ∧ v = UInt8.ofNat (16 * x + y) := by
  cases ha : Json.hexDigit a with
  | none => simp [radixDigits, ha]
  | some x =>
    cases hb : Json.hexDigit b with
    | none =>
      simp only [radixDigits, ha, hb]
      split <;> simp
    | some y =>
      have hx := (Json.hexDigit_bounds ha).1
      have hy := (Json.hexDigit_bounds hb).1
      simp only [radixDigits, ha, hb]
      rw [if_neg (by omega), if_neg (by omega)]
      simp [eq_comm]

theorem radixDigits_single {v : UInt8} : radixDigits [b] 0 = .ok v ↔
    ∃ y, Json.hexDigit b = some y ∧ v = UInt8.ofNat y := by
  cases hb : Json.hexDigit b with
  | none => simp [radixDigits, hb]
  | some y =>
    have hy := (Json.hexDigit_bounds hb).1
    simp only [radixDigits, hb]
    rw [if_neg (by omega)]
    simp [eq_comm]

/-- A slice of two characters reads as a byte exactly when it is a pair. -/
theorem fromStrRadix16_pair {v : UInt8} : fromStrRadix16 [a, b] = .ok v ↔ Pairs [a, b] [v] := by
  by_cases ha : a = '+'
  · subst ha
    show radixDigits [b] 0 = .ok v ↔ _
    rw [radixDigits_single]
    constructor
    · rintro ⟨y, hb, rfl⟩
      exact .plus hb .nil
    · intro h
      cases h with
      | digits ha => cases ha
      | plus hb => exact ⟨_, hb, rfl⟩
  · have hdigits : fromStrRadix16 [a, b] = radixDigits [a, b] 0 := by
      unfold fromStrRadix16
      split <;> simp_all
    rw [hdigits, radixDigits_pair]
    constructor
    · rintro ⟨x, y, hx, hy, rfl⟩
      exact .digits hx hy .nil
    · intro h
      cases h with
      | digits hx hy => exact ⟨_, _, hx, hy, rfl⟩
      | plus => exact absurd rfl ha

/-- A character of two bytes is no number. -/
theorem fromStrRadix16_wide (hc : c.utf8Size ≠ 1) : ∃ e, fromStrRadix16 [c] = .error e := by
  have hplus : c ≠ '+' := by
    rintro rfl
    exact hc rfl
  have hnone : Json.hexDigit c = none :=
    Option.eq_none_iff_forall_ne_some.mpr fun n hn => hc (utf8Size_of_hexDigit hn)
  refine ⟨"invalid digit found in string", ?_⟩
  unfold fromStrRadix16
  split <;> simp_all [radixDigits]

theorem Pairs.utf8Len (h : Pairs s bs) : utf8Len s = 2 * bs.length := by
  induction h with
  | nil => rfl
  | @digits a b x y s bs ha hb _ ih =>
    rw [TransferWasm333.utf8Len, List.map_cons, List.map_cons, List.sum_cons, List.sum_cons,
      ← TransferWasm333.utf8Len, ih, utf8Size_of_hexDigit ha, utf8Size_of_hexDigit hb,
      List.length_cons]
    omega
  | @plus b y s bs hb _ ih =>
    rw [TransferWasm333.utf8Len, List.map_cons, List.map_cons, List.sum_cons, List.sum_cons,
      ← TransferWasm333.utf8Len, ih, utf8Size_of_hexDigit hb, List.length_cons]
    show 1 + (1 + _) = _
    omega

/-- A pair in front of the rest. -/
theorem pairs_cons_cons {v : UInt8} :
    Pairs (a :: b :: s) (v :: bs) ↔ Pairs [a, b] [v] ∧ Pairs s bs := by
  constructor
  · intro h
    cases h with
    | digits ha hb h => exact ⟨.digits ha hb .nil, h⟩
    | plus hb h => exact ⟨.plus hb .nil, h⟩
  · rintro ⟨hpair, h⟩
    cases hpair with
    | digits ha hb => exact .digits ha hb h
    | plus hb => exact .plus hb h

theorem Pairs.utf8Size {v : UInt8} (h : Pairs [a, b] [v]) : a.utf8Size = 1 ∧ b.utf8Size = 1 := by
  cases h with
  | digits ha hb => exact ⟨utf8Size_of_hexDigit ha, utf8Size_of_hexDigit hb⟩
  | plus hb => exact ⟨rfl, utf8Size_of_hexDigit hb⟩

theorem utf8Len_cons (c : Char) (s : Text) : utf8Len (c :: s) = c.utf8Size + utf8Len s := rfl

/-- What `n` slices of a text come to. -/
structure Sliced (n : Nat) (s : Text) : Prop where
  ok : ∀ bs, hexPairs n s = .ok bs ↔ Pairs s bs
  panic : hexPairs n s = .panic ↔ Cut s

/-- The first character is longer than a slice. -/
theorem sliced_wide (ha : 2 < a.utf8Size) : Sliced (n + 1) (a :: s) := by
  have htake : takeBytes 2 (a :: s) = none := by
    rw [takeBytes, if_neg (by omega)]
  have hnot : ∀ bs, ¬ Pairs (a :: s) bs := fun bs h => by
    cases h with
    | digits hdigit =>
      rw [utf8Size_of_hexDigit hdigit] at ha
      omega
    | plus => exact absurd ha (by decide)
  refine ⟨fun bs => iff_of_false ?_ (hnot bs), iff_of_true ?_ (.wide ha)⟩
  · simp [hexPairs, htake]
  · simp [hexPairs, htake]

/-- The first slice ends within the second character. -/
theorem sliced_split (ha : a.utf8Size = 1) (hb : 1 < b.utf8Size) :
    Sliced (n + 1) (a :: b :: s) := by
  have htake : takeBytes 2 (a :: b :: s) = none := by
    rw [takeBytes, if_pos (by omega), ha, takeBytes, if_neg (by omega)]
    rfl
  have hnot : ∀ bs, ¬ Pairs (a :: b :: s) bs := fun bs h => by
    cases bs with
    | nil => cases h
    | cons v bs =>
      have := (pairs_cons_cons.mp h).1.utf8Size.2
      omega
  refine ⟨fun bs => iff_of_false ?_ (hnot bs), iff_of_true ?_ (.split ha hb)⟩
  · simp [hexPairs, htake]
  · simp [hexPairs, htake]

/-- A character of two bytes fills the first slice and is no number. -/
theorem sliced_two (ha : a.utf8Size = 2) : Sliced (n + 1) (a :: s) := by
  have hone : a.utf8Size ≠ 1 := by omega
  have htake : takeBytes 2 (a :: s) = some ([a], s) := by
    rw [takeBytes, if_pos (by omega), ha]
    cases s <;> rfl
  obtain ⟨e, he⟩ := fromStrRadix16_wide hone
  have hnot : ∀ bs, ¬ Pairs (a :: s) bs := fun bs h => by
    cases h with
    | digits hdigit => exact hone (utf8Size_of_hexDigit hdigit)
    | plus => exact hone rfl
  have hcut : ¬ Cut (a :: s) := fun h => by
    cases h with
    | wide hc => omega
    | split hc => exact hone hc
    | behind hpair => exact hone hpair.utf8Size.1
  refine ⟨fun bs => iff_of_false ?_ (hnot bs), iff_of_false ?_ hcut⟩
  · simp [hexPairs, htake, he]
  · simp [hexPairs, htake, he]

/-- A slice behind two characters of one byte. -/
theorem cut_cons_cons (ha : a.utf8Size = 1) (hb : b.utf8Size = 1) :
    Cut (a :: b :: s) ↔ ∃ v, Pairs [a, b] [v] ∧ Cut s := by
  constructor
  · intro h
    cases h with
    | wide hc => omega
    | split _ hd => omega
    | behind hpair h => exact ⟨_, hpair, h⟩
  · rintro ⟨v, hpair, h⟩
    exact .behind hpair h

/-- Two characters of one byte fill the first slice. -/
theorem sliced_pair (ha : a.utf8Size = 1) (hb : b.utf8Size = 1) (ih : Sliced n s) :
    Sliced (n + 1) (a :: b :: s) := by
  have htake : takeBytes 2 (a :: b :: s) = some ([a, b], s) := by
    rw [takeBytes, if_pos (by omega), ha, takeBytes, if_pos (by omega), hb]
    cases s <;> rfl
  have hcut : Cut (a :: b :: s) ↔ ∃ v, Pairs [a, b] [v] ∧ Cut s := cut_cons_cons ha hb
  cases hradix : fromStrRadix16 [a, b] with
  | error e =>
    have hnot : ∀ v, ¬ Pairs [a, b] [v] := fun v hpair => by
      rw [fromStrRadix16_pair.mpr hpair] at hradix
      cases hradix
    refine ⟨fun bs => iff_of_false ?_ fun h => ?_, iff_of_false ?_ fun h => ?_⟩
    · simp [hexPairs, htake, hradix]
    · cases bs with
      | nil => cases h
      | cons v bs => exact hnot v (pairs_cons_cons.mp h).1
    · simp [hexPairs, htake, hradix]
    · obtain ⟨v, hpair, -⟩ := hcut.mp h
      exact hnot v hpair
  | ok v =>
    have hpair := fromStrRadix16_pair.mp hradix
    have hunique : ∀ v', Pairs [a, b] [v'] → v' = v := fun v' hpair' => by
      rw [fromStrRadix16_pair.mpr hpair', Except.ok.injEq] at hradix
      exact hradix
    have hstep : hexPairs (n + 1) (a :: b :: s) =
        (hexPairs n s >>= fun bytes => pure (v :: bytes)) := by
      simp only [hexPairs, htake, hradix]
    refine ⟨fun bs => ?_, ?_⟩
    · rw [hstep, Outcome.bind_eq_ok]
      constructor
      · rintro ⟨bytes, hbytes, h⟩
        cases h
        exact pairs_cons_cons.mpr ⟨hpair, (ih.ok bytes).mp hbytes⟩
      · intro h
        cases bs with
        | nil => cases h
        | cons v' bs =>
          obtain ⟨hpair', h⟩ := pairs_cons_cons.mp h
          obtain rfl := hunique v' hpair'
          exact ⟨bs, (ih.ok bs).mpr h, rfl⟩
    · rw [hstep, Outcome.bind_eq_panic, hcut, ih.panic]
      constructor
      · rintro (h | ⟨bytes, -, h⟩)
        · exact ⟨v, hpair, h⟩
        · cases h
      · rintro ⟨v', -, h⟩
        exact .inl h

/-- The loop over the slices of a text with `2 * n` bytes. -/
theorem sliced (hlen : utf8Len s = 2 * n) : Sliced n s := by
  induction n generalizing s with
  | zero =>
    cases s with
    | nil =>
      refine ⟨fun bs => ⟨fun h => ?_, fun h => ?_⟩, iff_of_false (by simp [hexPairs]) ?_⟩
      · cases h
        exact .nil
      · cases h
        rfl
      · rintro ⟨⟩
    | cons c s =>
      have hpos := c.utf8Size_pos
      rw [utf8Len_cons] at hlen
      omega
  | succ n ih =>
    cases s with
    | nil => cases hlen
    | cons a s =>
      have hpos := a.utf8Size_pos
      rw [utf8Len_cons] at hlen
      by_cases hwide : 2 < a.utf8Size
      · exact sliced_wide hwide
      · by_cases htwo : a.utf8Size = 2
        · exact sliced_two htwo
        · have ha : a.utf8Size = 1 := by omega
          cases s with
          | nil =>
            simp [utf8Len] at hlen
            omega
          | cons b s =>
            have hposb := b.utf8Size_pos
            rw [utf8Len_cons, ha] at hlen
            by_cases hsplit : 1 < b.utf8Size
            · exact sliced_split ha hsplit
            · have hb : b.utf8Size = 1 := by omega
              rw [hb] at hlen
              exact sliced_pair ha hb (ih (by omega))

theorem hexDecode_eq_ok : hexDecode s = .ok bs ↔ Pairs s bs := by
  unfold hexDecode
  split
  · next hodd =>
    refine iff_of_false (by simp) fun h => hodd ?_
    rw [h.utf8Len]
    omega
  · exact (sliced (by omega)).ok bs

theorem hexDecode_eq_panic : hexDecode s = .panic ↔ utf8Len s % 2 = 0 ∧ Cut s := by
  unfold hexDecode
  split
  · next hodd => exact iff_of_false (by simp) fun h => hodd h.1
  · next heven =>
    rw [not_not] at heven
    rw [(sliced (by omega)).panic, and_iff_right heven]

/-- The key is written as 64 hexadecimal digits. -/
def IsHex64 (k : Text) : Prop := k.length = 64 ∧ ∀ c ∈ k, (Json.hexDigit c).isSome = true

theorem Pairs.length (h : Pairs s bs) : s.length = 2 * bs.length := by
  induction h with
  | nil => rfl
  | digits _ _ _ ih => simp only [List.length_cons, ih]; omega
  | plus _ _ ih => simp only [List.length_cons, ih]; omega

theorem Pairs.isSome_iff (h : Pairs s bs) :
    (∀ c ∈ s, (Json.hexDigit c).isSome = true) ↔ '+' ∉ s := by
  constructor
  · intro hdigits hplus
    cases hdigits '+' hplus
  · intro hplus
    induction h with
    | nil => exact List.forall_mem_nil _
    | digits ha hb _ ih =>
      simp only [List.mem_cons, not_or] at hplus
      simp only [List.forall_mem_cons, ha, hb, Option.isSome_some, true_and]
      exact ih hplus.2.2
    | plus => exact absurd List.mem_cons_self hplus

end Hex

/-! ## Keys -/

section Keys

variable [KeyFormat] {k : Text} {key : VerifyingKey}

theorem keyFromHex_eq_ok : keyFromHex k = .ok key ↔
    ∃ bs, ∃ h : bs.length = 32, Pairs k bs ∧ VerifyingKey.fromBytes ⟨bs, h⟩ = some key := by
  unfold keyFromHex
  rw [Outcome.bind_eq_ok]
  simp only [hexDecode_eq_ok]
  refine exists_congr fun bs => ?_
  split
  · next h =>
    rw [exists_prop_of_true h]
    refine and_congr_right fun _ => ?_
    cases VerifyingKey.fromBytes ⟨bs, h⟩ <;> simp
  · next h => exact iff_of_false (by simp) fun ⟨hlen, _⟩ => h hlen

theorem keyFromHex_eq_panic : keyFromHex k = .panic ↔ utf8Len k % 2 = 0 ∧ Cut k := by
  unfold keyFromHex
  rw [Outcome.bind_eq_panic, hexDecode_eq_panic, or_iff_left]
  rintro ⟨bs, -, h⟩
  split at h
  · split at h <;> cases h
  · cases h

/-- A key that is accepted is written in digits unless it holds a sign. -/
theorem isHex64_iff (h : keyFromHex k = .ok key) : IsHex64 k ↔ '+' ∉ k := by
  obtain ⟨bs, hlen, hpairs, -⟩ := keyFromHex_eq_ok.mp h
  rw [IsHex64, hpairs.isSome_iff, and_iff_right]
  rw [hpairs.length, hlen]

end Keys

/-! ## The run of a verdict -/

theorem utf8ByteSize_ofList (s : Text) : (String.ofList s).utf8ByteSize = utf8Len s := by
  induction s with
  | nil => rfl
  | cons c s ih =>
    have hcons : String.ofList (c :: s) = String.singleton c ++ String.ofList s := by
      rw [String.singleton_eq_ofList, ← String.ofList_append]
      rfl
    rw [hcons, String.utf8ByteSize_append, String.utf8ByteSize_singleton, ih, utf8Len_cons]

/-- A piece of a string is not longer than the string. -/
theorem exists_toStr {json : Str} {s : Text} (h : s.Sublist json.text.toList) :
    ∃ str, toStr s = some str := by
  have hle : utf8Len s ≤ utf8Len json.text.toList := (h.map Char.utf8Size).sum_le_sum fun _ _ =>
    Nat.zero_le _
  have hfits := json.fits
  rw [← String.ofList_toList (s := json.text), utf8ByteSize_ofList] at hfits
  refine ⟨_, dif_pos ?_⟩
  rw [utf8ByteSize_ofList]
  omega

section Run

variable [KeyFormat]

/-- The loop over a roster hands the key to `key_from_hex`: every key before it was accepted. -/
inductive Reached : List (Text × Text) → Text → Prop
  | here {name k : Text} {es : List (Text × Text)} : Reached ((name, k) :: es) k
  | there {name k k' : Text} {es : List (Text × Text)} {key : VerifyingKey}
      (hk : keyFromHex k = .ok key) (h : Reached es k') : Reached ((name, k) :: es) k'

/-- The keys that a verdict reads: those of the owners, and once the policy stands, those of the
authorities. -/
inductive ReadKey (json : Str) : Text → Prop
  | owner {cfg : Config} {k : Text} (hcfg : Config.parse json.text.toList = .ok cfg)
      (hk : Reached cfg.owners k) : ReadKey json k
  | authority {cfg : Config} {p : TransferPolicy} {k : Text}
      (hcfg : Config.parse json.text.toList = .ok cfg) (hp : cfg.policy = .ok p)
      (hk : Reached cfg.authorities k) : ReadKey json k

/-- A slice of the key ends within a character. -/
def SlicesWithin (k : Text) : Prop := utf8Len k % 2 = 0 ∧ Cut k

theorem bindings_eq_panic {es : List (Text × Text)}
    (hnames : ∀ e ∈ es, ∃ str, toStr e.1 = some str) :
    bindings es = .panic ↔ ∃ k, Reached es k ∧ SlicesWithin k := by
  induction es with
  | nil => exact iff_of_false (by simp [bindings]) fun ⟨_, h, _⟩ => (by cases h)
  | cons e es ih =>
    obtain ⟨name, k⟩ := e
    obtain ⟨str, hstr⟩ := hnames _ List.mem_cons_self
    have ih := ih fun e he => hnames e (List.mem_cons_of_mem _ he)
    simp only [bindings, hstr]
    rw [Outcome.bind_eq_panic, keyFromHex_eq_panic, ← SlicesWithin]
    constructor
    · rintro (h | ⟨key, hkey, h⟩)
      · exact ⟨k, .here, h⟩
      · rw [Outcome.bind_eq_panic] at h
        rcases h with h | ⟨rest, -, h⟩
        · obtain ⟨k', hreached, hcut⟩ := ih.mp h
          exact ⟨k', .there hkey hreached, hcut⟩
        · cases h
    · rintro ⟨k', hreached, hcut⟩
      cases hreached with
      | here => exact .inl hcut
      | there hkey hreached =>
        exact .inr ⟨_, hkey, Outcome.bind_eq_panic.mpr (.inl (ih.mpr ⟨k', hreached, hcut⟩))⟩

variable {cfg : Config} {json : Str}

theorem policy_eq_panic (h : Reads json.text.toList cfg) :
    cfg.policy = .panic ↔ ∃ k, Reached cfg.owners k ∧ SlicesWithin k := by
  obtain ⟨hid, howners, -⟩ := h.sublist
  obtain ⟨id, hid⟩ := exists_toStr hid
  rw [← bindings_eq_panic fun e he => exists_toStr (howners e he), Config.policy,
    Outcome.bind_eq_panic, or_iff_left]
  rintro ⟨owners, -, h⟩
  rw [Outcome.bind_eq_panic] at h
  rcases h with h | ⟨registry, -, h⟩
  · exact Outcome.lift_ne_panic h
  · simp only [hid] at h
    rw [Outcome.bind_eq_panic] at h
    rcases h with h | ⟨network, -, h⟩
    · exact Outcome.lift_ne_panic h
    · cases h

theorem committee_eq_panic (h : Reads json.text.toList cfg) (p : TransferPolicy) :
    cfg.committee p = .panic ↔ ∃ k, Reached cfg.authorities k ∧ SlicesWithin k := by
  obtain ⟨-, -, hauthorities⟩ := h.sublist
  rw [← bindings_eq_panic fun e he => exists_toStr (hauthorities e he), Config.committee,
    Outcome.bind_eq_panic, or_iff_left]
  rintro ⟨members, -, h⟩
  split at h <;> cases h

variable [Crypto] {bytes : Bytes}

/-- A verdict panics exactly when a slice of a key that it reads ends within a character. -/
theorem core_eq_panic : verifyCertificateCore json bytes = .panic ↔
    ∃ k, ReadKey json k ∧ SlicesWithin k := by
  rw [verifyCertificateCore, Outcome.bind_eq_panic, or_iff_right Outcome.lift_ne_panic]
  constructor
  · rintro ⟨cfg, hcfg, h⟩
    rw [Outcome.lift_eq_ok] at hcfg
    have hreads := Config.parse_eq_ok.mp hcfg
    rcases Outcome.bind_eq_panic.mp h with h | ⟨p, hp, h⟩
    · obtain ⟨k, hk, hcut⟩ := (policy_eq_panic hreads).mp h
      exact ⟨k, .owner hcfg hk, hcut⟩
    · rcases Outcome.bind_eq_panic.mp h with h | ⟨c, -, h⟩
      · obtain ⟨k, hk, hcut⟩ := (committee_eq_panic hreads p).mp h
        exact ⟨k, .authority hcfg hp hk, hcut⟩
      · rcases Outcome.bind_eq_panic.mp h with h | ⟨cert, -, h⟩
        · exact absurd h Outcome.lift_ne_panic
        · split at h <;> cases h
  · rintro ⟨k, hk, hcut⟩
    cases hk with
    | @owner cfg _ hcfg hk =>
      have hpanic := (policy_eq_panic (Config.parse_eq_ok.mp hcfg)).mpr ⟨k, hk, hcut⟩
      exact ⟨cfg, Outcome.lift_eq_ok.mpr hcfg, Outcome.bind_eq_panic.mpr (.inl hpanic)⟩
    | @authority cfg p _ hcfg hp hk =>
      have hpanic := (committee_eq_panic (Config.parse_eq_ok.mp hcfg) p).mpr ⟨k, hk, hcut⟩
      exact ⟨cfg, Outcome.lift_eq_ok.mpr hcfg, Outcome.bind_eq_panic.mpr
        (.inr ⟨p, hp, Outcome.bind_eq_panic.mpr (.inl hpanic)⟩)⟩

/-- The certificate is accepted under the pinned config. -/
structure Accepts (json : Str) (bytes : Bytes) (cfg : Config) (p : TransferPolicy) (c : Committee)
    (cert : Certificate) : Prop where
  config : Config.parse json.text.toList = .ok cfg
  policy : cfg.policy = .ok p
  committee : cfg.committee p = .ok c
  decoded : decodeCertificate bytes = .ok cert
  valid : cert.validate c = .ok ()

theorem core_eq_ok {out : Text} : verifyCertificateCore json bytes = .ok out ↔
    ∃ cfg p c cert, Accepts json bytes cfg p c cert ∧
      out = report cert.order.transfer c.size c.quorum cert.order.orderId := by
  constructor
  · intro h
    obtain ⟨cfg, hcfg, h⟩ := Outcome.bind_eq_ok.mp h
    obtain ⟨p, hp, h⟩ := Outcome.bind_eq_ok.mp h
    obtain ⟨c, hc, h⟩ := Outcome.bind_eq_ok.mp h
    obtain ⟨cert, hcert, h⟩ := Outcome.bind_eq_ok.mp h
    rw [Outcome.lift_eq_ok] at hcfg hcert
    split at h
    · cases h
    · next verified hv =>
      obtain ⟨hvalid, horder, -⟩ := Certificate.verify_eq_some hv
      refine ⟨cfg, p, c, cert, ⟨hcfg, hp, hc, hcert, hvalid⟩, ?_⟩
      rw [← horder]
      exact (Outcome.ok.inj h).symm
  · rintro ⟨cfg, p, c, cert, hacc, rfl⟩
    refine Outcome.bind_eq_ok.mpr ⟨cfg, Outcome.lift_eq_ok.mpr hacc.config, ?_⟩
    refine Outcome.bind_eq_ok.mpr ⟨p, hacc.policy, Outcome.bind_eq_ok.mpr ⟨c, hacc.committee, ?_⟩⟩
    refine Outcome.bind_eq_ok.mpr ⟨cert, Outcome.lift_eq_ok.mpr hacc.decoded, ?_⟩
    have hverify : cert.verify c = some ⟨cert.order, c.id, cert, c, hacc.valid, rfl, rfl⟩ :=
      dif_pos (Certificate.isValid_iff.mpr hacc.valid)
    simp only [hverify]
    rfl

end Run

/-! ## The text of a verdict -/

/-- The characters that a JSON string must escape and `json_escape` does not. -/
abbrev IsControl (c : Char) : Prop := c.toNat < 0x20

theorem jsonEscape_cons (c : Char) (s : Text) : jsonEscape (c :: s) =
    (if c = '\\' then ['\\', '\\'] else if c = '"' then ['\\', '"'] else [c]) ++ jsonEscape s := by
  by_cases hslash : c = '\\'
  · simp [jsonEscape, replaceChar, hslash]
  · by_cases hquote : c = '"'
    · simp [jsonEscape, replaceChar, hquote]
    · simp [jsonEscape, replaceChar, hslash, hquote]

/-- Without control characters an escaped text spells the text. -/
theorem chars_jsonEscape {s : Text} (h : ∀ c ∈ s, ¬ IsControl c) : Json.Chars (jsonEscape s) s := by
  induction s with
  | nil => exact .nil
  | cons c s ih =>
    have ih := ih fun d hd => h d (List.mem_cons_of_mem c hd)
    rw [jsonEscape_cons]
    split
    · next hslash =>
      subst hslash
      exact .escape (by simp [Json.escapes]) ih
    · next hslash =>
      split
      · next hquote =>
        subst hquote
        exact .escape (by simp [Json.escapes]) ih
      · next hquote => exact .plain (Nat.not_lt.mp (h c List.mem_cons_self)) hquote hslash ih

/-- With one, it spells nothing. -/
theorem scan_jsonEscape {s : Text} (h : ∃ c ∈ s, IsControl c) :
    Json.scan .inside (jsonEscape s) = none := by
  induction s with
  | nil => exact absurd h (by simp)
  | cons c s ih =>
    by_cases hc : IsControl c
    · have hslash : c ≠ '\\' := by
        rintro rfl
        exact absurd hc (by decide)
      have hquote : c ≠ '"' := by
        rintro rfl
        exact absurd hc (by decide)
      rw [jsonEscape_cons, if_neg hslash, if_neg hquote, List.singleton_append, Json.scan,
        if_pos hc]
    · have ih := ih (by
        obtain ⟨d, hd, hcontrol⟩ := h
        rcases List.mem_cons.mp hd with rfl | hd
        · exact absurd hcontrol hc
        · exact ⟨d, hd, hcontrol⟩)
      rw [jsonEscape_cons]
      split
      · exact ih
      · next hslash =>
        split
        · exact ih
        · next hquote =>
          rw [List.singleton_append, Json.scan, if_neg hc, if_neg hquote, if_neg hslash, ih]

theorem pairs_hexEncode (bs : Bytes) : Pairs (hexEncode bs) bs := by
  have hdigit : ∀ n < 16, Json.hexDigit (hexChar n) = some n := by decide
  induction bs with
  | nil => exact .nil
  | cons b bs ih =>
    have hb := b.toNat_lt
    have h := Pairs.digits (hdigit (b.toNat / 16) (by omega)) (hdigit (b.toNat % 16) (by omega)) ih
    rw [show 16 * (b.toNat / 16) + b.toNat % 16 = b.toNat by omega, UInt8.ofNat_toNat] at h
    exact h

theorem isPlain_toDigits (n : Nat) : (Nat.toDigits 10 n).all Json.isPlain = true := by
  rw [List.all_eq_true]
  intro c hc
  have hdigit := (Json.digits_toDigits n).2 c hc
  rw [Json.isPlain, Bool.and_eq_true, Bool.and_eq_true, decide_eq_true_eq, decide_eq_true_eq,
    decide_eq_true_eq]
  refine ⟨⟨?_, ?_⟩, ?_⟩
  · have hle : '0'.toNat ≤ c.toNat := by
      simp only [Char.isDigit, Bool.and_eq_true, decide_eq_true_eq] at hdigit
      exact UInt32.le_iff_toNat_le.mp hdigit.1
    exact le_trans (by decide) hle
  · rintro rfl
    cases hdigit
  · rintro rfl
    cases hdigit

theorem isPlain_of_hexDigit {c : Char} {n : Nat} (h : Json.hexDigit c = some n) :
    Json.isPlain c = true := by
  have hle := (Json.hexDigit_bounds h).2.1
  rw [Json.isPlain, Bool.and_eq_true, Bool.and_eq_true, decide_eq_true_eq, decide_eq_true_eq,
    decide_eq_true_eq]
  refine ⟨⟨by omega, ?_⟩, ?_⟩
  · rintro rfl
    cases h
  · rintro rfl
    cases h

theorem isPlain_hexEncode (bs : Bytes) : (hexEncode bs).all Json.isPlain = true := by
  have hdigit : ∀ n < 16, Json.hexDigit (hexChar n) = some n := by decide
  rw [List.all_eq_true]
  intro c hc
  obtain ⟨b, -, hc⟩ := List.mem_flatMap.mp hc
  have hb := b.toNat_lt
  rcases List.mem_cons.mp hc with rfl | hc
  · exact isPlain_of_hexDigit (hdigit (b.toNat / 16) (by omega))
  · rw [List.mem_singleton.mp hc]
    exact isPlain_of_hexDigit (hdigit (b.toNat % 16) (by omega))

/-- The members of a report, in order. -/
def reportMembers (t : Transfer) (size quorum : Nat) (orderId : Digest) :
    List (Text × Json.Value) :=
  [("verified".toList, .bool true), ("from".toList, .str t.sender.text.toList),
    ("to".toList, .str t.recipient.text.toList), ("from_seq".toList, .num t.fromSeq.toNat),
    ("amount".toList, .str (Nat.toDigits 10 t.amount.toNat)), ("committee_size".toList, .num size),
    ("quorum".toList, .num quorum), ("order_id".toList, .str (hexEncode orderId.toList))]

/-- A member without whitespace. -/
def field (name : Text) (h : name.all Json.isPlain = true) (value : Spelled) : Member Spelled :=
  { before := ⟨[], ws_nil⟩
    name := ⟨name, name, .of_plain h⟩
    afterName := ⟨[], ws_nil⟩
    beforeValue := ⟨[], ws_nil⟩
    value
    after := ⟨[], ws_nil⟩ }

def numValue (n : Nat) : Spelled := ⟨(Nat.toDigits 10 n, .num n), Json.spells_toDigits n⟩

def strValue (s : Text) (h : s.all Json.isPlain = true) : Spelled :=
  ⟨('"' :: s ++ ['"'], .str s), .str (.of_plain h)⟩

def escapedValue (s : Text) (h : ∀ c ∈ s, ¬ IsControl c) : Spelled :=
  ⟨('"' :: jsonEscape s ++ ['"'], .str s), .str (chars_jsonEscape h)⟩

theorem spelling_field (name : Text) (h : name.all Json.isPlain = true) (value : Spelled) :
    (field name h value).spelling = '"' :: (name ++ '"' :: ':' :: value.1.1) := by
  simp [Member.spelling, Member.text, Member.core, Member.map, field, Tok.text]

def trueValue : Spelled := ⟨(['t', 'r', 'u', 'e'], .bool true), .true⟩

theorem text_numValue (n : Nat) : (numValue n).1.1 = Nat.toDigits 10 n := rfl

theorem text_strValue (s : Text) (h : s.all Json.isPlain = true) :
    (strValue s h).1.1 = '"' :: s ++ ['"'] := rfl

theorem text_escapedValue (s : Text) (h : ∀ c ∈ s, ¬ IsControl c) :
    (escapedValue s h).1.1 = '"' :: jsonEscape s ++ ['"'] := rfl

theorem text_trueValue : trueValue.1.1 = ['t', 'r', 'u', 'e'] := rfl

/-- The members of a report with their spelling. -/
def reportFields (t : Transfer) (size quorum : Nat) (orderId : Digest)
    (hsender : ∀ c ∈ t.sender.text.toList, ¬ IsControl c)
    (hrecipient : ∀ c ∈ t.recipient.text.toList, ¬ IsControl c) : List (Member Spelled) :=
  [field "verified".toList (by decide) trueValue,
    field "from".toList (by decide) (escapedValue _ hsender),
    field "to".toList (by decide) (escapedValue _ hrecipient),
    field "from_seq".toList (by decide) (numValue t.fromSeq.toNat),
    field "amount".toList (by decide) (strValue _ (isPlain_toDigits t.amount.toNat)),
    field "committee_size".toList (by decide) (numValue size),
    field "quorum".toList (by decide) (numValue quorum),
    field "order_id".toList (by decide) (strValue _ (isPlain_hexEncode orderId.toList))]

variable (t : Transfer) (size quorum : Nat) (orderId : Digest)

/-- The format string of a report, piece by piece. -/
theorem report_shape (a b c d e f g : Text) :
    "\x7b\"verified\":true,\"from\":\"".toList ++ a ++ "\",\"to\":\"".toList ++ b ++
      "\",\"from_seq\":".toList ++ c ++ ",\"amount\":\"".toList ++ d ++
      "\",\"committee_size\":".toList ++ e ++ ",\"quorum\":".toList ++ f ++
      ",\"order_id\":\"".toList ++ g ++ "\"\x7d".toList =
    '{' :: [','].intercalate
      ['"' :: ("verified".toList ++ '"' :: ':' :: ['t', 'r', 'u', 'e']),
        '"' :: ("from".toList ++ '"' :: ':' :: ('"' :: a ++ ['"'])),
        '"' :: ("to".toList ++ '"' :: ':' :: ('"' :: b ++ ['"'])),
        '"' :: ("from_seq".toList ++ '"' :: ':' :: c),
        '"' :: ("amount".toList ++ '"' :: ':' :: ('"' :: d ++ ['"'])),
        '"' :: ("committee_size".toList ++ '"' :: ':' :: e),
        '"' :: ("quorum".toList ++ '"' :: ':' :: f),
        '"' :: ("order_id".toList ++ '"' :: ':' :: ('"' :: g ++ ['"']))] ++ ['}'] := by
  simp only [List.intercalate_cons_cons, List.intercalate_singleton, String.reduceToList,
    List.append_assoc, List.cons_append, List.nil_append]

theorem spelling_reportFields (hsender : ∀ c ∈ t.sender.text.toList, ¬ IsControl c)
    (hrecipient : ∀ c ∈ t.recipient.text.toList, ¬ IsControl c) :
    report t size quorum orderId = '{' :: [','].intercalate
      ((reportFields t size quorum orderId hsender hrecipient).map Member.spelling) ++ ['}'] := by
  refine (report_shape _ _ _ _ _ _ _).trans ?_
  rw [reportFields]
  iterate 8 rw [List.map_cons, spelling_field]
  rw [List.map_nil, text_trueValue, text_escapedValue, text_escapedValue, text_numValue,
    text_numValue, text_numValue, text_strValue, text_strValue]

/-- Without control characters in its names a report is the JSON text of its members. -/
theorem text_report (hsender : ∀ c ∈ t.sender.text.toList, ¬ IsControl c)
    (hrecipient : ∀ c ∈ t.recipient.text.toList, ¬ IsControl c) :
    Json.Text (report t size quorum orderId) (.obj (reportMembers t size quorum orderId)) := by
  have hspells := spells_members
    (l := reportFields t size quorum orderId hsender hrecipient) (List.cons_ne_nil _ _)
  have htext := Json.Text.mk (List.forall_mem_nil _) (.obj hspells) (List.forall_mem_nil _)
  rw [List.nil_append, List.append_nil, ← spelling_reportFields] at htext
  exact htext

/-- No text that opens with the two names in their places is JSON, if one of them has a control
character. -/
theorem not_text_names {v : Json.Value} {start between rest sender recipient : Text}
    (hstart : Json.scan .outside start = some .inside)
    (hbetween : Json.scan .inside between = some .inside)
    (h : (∃ c ∈ sender, IsControl c) ∨ ∃ c ∈ recipient, IsControl c) :
    ¬ Json.Text
      (start ++ (jsonEscape sender ++ (between ++ (jsonEscape recipient ++ rest)))) v := by
  intro htext
  have hscan := htext.scan
  rw [Json.scan_append, hstart, Option.bind_some, Json.scan_append] at hscan
  by_cases hsender : ∃ c ∈ sender, IsControl c
  · rw [scan_jsonEscape hsender] at hscan
    cases hscan
  · have hclean : ∀ c ∈ sender, ¬ IsControl c := by simpa using hsender
    rw [(chars_jsonEscape hclean).scan, Option.bind_some, Json.scan_append, hbetween,
      Option.bind_some, Json.scan_append, scan_jsonEscape (h.resolve_left hsender)] at hscan
    cases hscan

theorem append_names (start a between b p c q d r e s f t g u : Text) :
    start ++ a ++ between ++ b ++ p ++ c ++ q ++ d ++ r ++ e ++ s ++ f ++ t ++ g ++ u =
      start ++ (a ++ (between ++ (b ++
        (p ++ c ++ q ++ d ++ r ++ e ++ s ++ f ++ t ++ g ++ u)))) := by
  simp only [List.append_assoc]

/-- The names come first in the format string of a report. -/
theorem report_names (t : Transfer) (size quorum : Nat) (orderId : Digest) : ∃ rest,
    report t size quorum orderId =
      "\x7b\"verified\":true,\"from\":\"".toList ++ (jsonEscape t.sender.text.toList ++
        ("\",\"to\":\"".toList ++ (jsonEscape t.recipient.text.toList ++ rest))) :=
  ⟨_, append_names _ _ _ _ _ _ _ _ _ _ _ _ _ _ _⟩

/-- A control character in a name leaves no value that the report spells. -/
theorem not_text_report {t : Transfer} {size quorum : Nat} {orderId : Digest}
    (h : (∃ c ∈ t.sender.text.toList, IsControl c) ∨ ∃ c ∈ t.recipient.text.toList, IsControl c)
    (v : Json.Value) : ¬ Json.Text (report t size quorum orderId) v := by
  obtain ⟨rest, hreport⟩ := report_names t size quorum orderId
  rw [hreport]
  exact not_text_names (by decide) (by decide) h

section Report

variable [Crypto]

/-- The text is JSON and says what the certificate says. -/
def Reports (out : Text) (cert : Certificate) : Prop :=
  ∃ ms, Json.Text out (.obj ms) ∧ (ms.map Prod.fst).Nodup ∧
    ("from".toList, .str cert.order.transfer.sender.text.toList) ∈ ms ∧
    ("to".toList, .str cert.order.transfer.recipient.text.toList) ∈ ms ∧
    ("from_seq".toList, .num cert.order.transfer.fromSeq.toNat) ∈ ms ∧
    (∃ ds, ("amount".toList, .str ds) ∈ ms ∧ Json.Digits ds ∧
      Nat.ofDigitChars 10 ds 0 = cert.order.transfer.amount.toNat) ∧
    ∃ hex, ("order_id".toList, .str hex) ∈ ms ∧ hexDecode hex = .ok cert.order.orderId.toList

/-- Neither account name of the transfer holds a control character. -/
def CleanNames (t : Transfer) : Prop :=
  (∀ c ∈ t.sender.text.toList, ¬ IsControl c) ∧ ∀ c ∈ t.recipient.text.toList, ¬ IsControl c

theorem reports_iff (cert : Certificate) (size quorum : Nat) :
    Reports (report cert.order.transfer size quorum cert.order.orderId) cert ↔
      CleanNames cert.order.transfer := by
  constructor
  · rintro ⟨ms, htext, -⟩
    have hnot : ¬ ((∃ c ∈ cert.order.transfer.sender.text.toList, IsControl c) ∨
        ∃ c ∈ cert.order.transfer.recipient.text.toList, IsControl c) :=
      fun h => not_text_report h _ htext
    simpa [CleanNames] using hnot
  · rintro ⟨hsender, hrecipient⟩
    refine ⟨_, text_report _ _ _ _ hsender hrecipient, ?_, ?_, ?_, ?_, ?_, ?_⟩
    · show ["verified".toList, "from".toList, "to".toList, "from_seq".toList, "amount".toList,
        "committee_size".toList, "quorum".toList, "order_id".toList].Nodup
      decide
    · simp [reportMembers]
    · simp [reportMembers]
    · simp [reportMembers]
    · exact ⟨_, by simp [reportMembers], Json.digits_toDigits _, Nat.ofDigitChars_ten_toDigits⟩
    · exact ⟨_, by simp [reportMembers], hexDecode_eq_ok.mpr (pairs_hexEncode _)⟩

variable [KeyFormat]

/-- The verdict on an input is total and faithful: it does not panic, every key that it accepts is
written in 64 digits, and what it reports is JSON that says what the certificate says. -/
structure Faithful (json : Str) (bytes : Bytes) : Prop where
  total : verifyCertificateCore json bytes ≠ .panic
  keys : ∀ k key, ReadKey json k → keyFromHex k = .ok key → IsHex64 k
  text : ∀ out, verifyCertificateCore json bytes = .ok out →
    ∃ cert, decodeCertificate bytes = .ok cert ∧ Reports out cert

/-- A key of the curve with a plus sign in place of a digit. -/
def SignedKey (k : Text) : Prop :=
  '+' ∈ k ∧ ∃ bs, ∃ h : bs.length = 32, Pairs k bs ∧
    ∃ key, VerifyingKey.fromBytes ⟨bs, h⟩ = some key

omit [Crypto] in
theorem signedKey_iff (k : Text) : SignedKey k ↔ ∃ key, keyFromHex k = .ok key ∧ ¬ IsHex64 k := by
  constructor
  · rintro ⟨hplus, bs, hlen, hpairs, key, hkey⟩
    have hok := keyFromHex_eq_ok.mpr ⟨bs, hlen, hpairs, hkey⟩
    exact ⟨key, hok, fun h => (isHex64_iff hok).mp h hplus⟩
  · rintro ⟨key, hok, hhex⟩
    obtain ⟨bs, hlen, hpairs, hkey⟩ := keyFromHex_eq_ok.mp hok
    rw [isHex64_iff hok, not_not] at hhex
    exact ⟨hhex, bs, hlen, hpairs, key, hkey⟩

/-- The verdict is total and faithful exactly when no key that it reads has a slice that ends within
a character or a sign for a digit, and an accepted transfer has no control character in its names.
-/
theorem verdict_faithful_iff (json : Str) (bytes : Bytes) : Faithful json bytes ↔
    (∀ k, ReadKey json k → ¬ SlicesWithin k ∧ ¬ SignedKey k) ∧
    ∀ cfg p c cert, Accepts json bytes cfg p c cert → CleanNames cert.order.transfer := by
  constructor
  · intro h
    refine ⟨fun k hk => ⟨fun hcut => ?_, fun hsigned => ?_⟩, fun cfg p c cert hacc => ?_⟩
    · exact h.total (core_eq_panic.mpr ⟨k, hk, hcut⟩)
    · obtain ⟨key, hok, hhex⟩ := (signedKey_iff k).mp hsigned
      exact hhex (h.keys k key hk hok)
    · obtain ⟨cert', hdecoded, hreports⟩ :=
        h.text _ (core_eq_ok.mpr ⟨cfg, p, c, cert, hacc, rfl⟩)
      obtain rfl : cert = cert' := Except.ok.inj (hacc.decoded.symm.trans hdecoded)
      exact (reports_iff cert _ _).mp hreports
  · rintro ⟨hkeys, hnames⟩
    refine ⟨fun hpanic => ?_, fun k key hk hok => ?_, fun out hout => ?_⟩
    · obtain ⟨k, hk, hcut⟩ := core_eq_panic.mp hpanic
      exact (hkeys k hk).1 hcut
    · by_contra hhex
      exact (hkeys k hk).2 ((signedKey_iff k).mpr ⟨key, hok, hhex⟩)
    · obtain ⟨cfg, p, c, cert, hacc, rfl⟩ := core_eq_ok.mp hout
      exact ⟨cert, hacc.decoded, (reports_iff cert _ _).mpr (hnames cfg p c cert hacc)⟩

end Report

namespace Demo

open Transfer333.Demo

/-- The key of the owner has four bytes, and the second character takes two of them. -/
def accented : Str :=
  ⟨"\x7b\"network_id\":\"n\",\"owners\":\x7b\"a\":\"aéa\"\x7d," ++
    "\"authorities\":\x7b\"b\":\"00\"\x7d\x7d", by decide⟩

theorem accented_panics : ∃ json bytes, ¬ Faithful json bytes :=
  ⟨accented, [], fun h => h.total (by decide +kernel)⟩

end Demo

end P2P333.TransferWasm333
