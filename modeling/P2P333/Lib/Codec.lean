import P2P333.Lib.Bytes

/-!
# Decoders

A decoder takes a value off the front of its input or fails. `Exact d enc dom` says that `d` is the
inverse of the encoder `enc` on the values in `dom`: it reads every encoding of such a value back,
whatever follows it, and it accepts nothing else. Exactness composes along the monad, so that a
decoder written field by field is proved exact field by field.
-/

namespace P2P333.Lib

variable {ε α β : Type}

/-- Bytes come off the front of the state. -/
abbrev Decoder (ε α : Type) := StateT Bytes (Except ε) α

/-- Reading back what `enc` wrote, and only that. -/
structure Exact (d : Decoder ε α) (enc : α → Bytes) (dom : α → Prop) : Prop where
  complete : ∀ a rest, dom a → d.run (enc a ++ rest) = .ok (a, rest)
  sound : ∀ bs a rest, d.run bs = .ok (a, rest) → dom a ∧ bs = enc a ++ rest

/-- A fallible step that succeeds, and then the rest. -/
theorem bind_eq_ok {x : Except ε α} {f : α → Except ε β} {b : β} :
    (x >>= f) = .ok b ↔ ∃ a, x = .ok a ∧ f a = .ok b := by
  cases x with
  | error e => simp [bind, Except.bind]
  | ok a => simp [bind, Except.bind]

namespace Exact

variable {d : Decoder ε α}

/-- A step of a decoder that succeeds. -/
theorem run_bind_eq_ok {k : α → Decoder ε β} {bs rest : Bytes} {b : β} :
    (d >>= k).run bs = .ok (b, rest) ↔
      ∃ a rest', d.run bs = .ok (a, rest') ∧ (k a).run rest' = .ok (b, rest) := by
  rw [StateT.run_bind, bind_eq_ok]
  exact Prod.exists

theorem pure (a : α) : Exact (Pure.pure a : Decoder ε α) (fun _ => []) (fun b => b = a) where
  complete b rest hb := by rw [hb]; rfl
  sound bs b rest h := by
    cases h
    exact ⟨rfl, rfl⟩

/-- One more field: `f` is the field of the record that `d` reads. -/
theorem bind {k : α → Decoder ε β} {encA : α → Bytes} {encB : β → Bytes}
    {domA : α → Prop} {domB : α → β → Prop} (f : β → α)
    (hf : ∀ a b, domA a → domB a b → f b = a) (hd : Exact d encA domA)
    (hk : ∀ a, Exact (k a) encB (domB a)) :
    Exact (d >>= k) (fun b => encA (f b) ++ encB b) (fun b => domA (f b) ∧ domB (f b) b) where
  complete b rest hb := by
    rw [run_bind_eq_ok]
    refine ⟨f b, encB b ++ rest, ?_, (hk (f b)).complete b rest hb.2⟩
    rw [List.append_assoc]
    exact hd.complete _ _ hb.1
  sound bs b rest h := by
    obtain ⟨a, rest', ha, hb⟩ := run_bind_eq_ok.mp h
    obtain ⟨hdomA, rfl⟩ := hd.sound _ _ _ ha
    obtain ⟨hdomB, rfl⟩ := (hk a).sound _ _ _ hb
    obtain rfl := hf a b hdomA hdomB
    exact ⟨⟨hdomA, hdomB⟩, (List.append_assoc ..).symm⟩

/-- The same decoder, with its encoder and its domain written otherwise. -/
theorem congr {enc enc' : α → Bytes} {dom dom' : α → Prop} (h : Exact d enc dom)
    (hdom : ∀ a, dom a ↔ dom' a) (henc : ∀ a, dom a → enc a = enc' a) : Exact d enc' dom' where
  complete a rest ha := by
    have ha := (hdom a).mpr ha
    rw [← henc a ha]
    exact h.complete a rest ha
  sound bs a rest hd := by
    obtain ⟨ha, hbs⟩ := h.sound bs a rest hd
    exact ⟨(hdom a).mp ha, henc a ha ▸ hbs⟩

/-- A check that refuses some inputs. -/
theorem guard {enc : α → Bytes} {dom : α → Prop} {c : Prop} [Decidable c] {e : ε}
    (h : Exact d enc dom) : Exact (if c then throw e else d) enc (fun a => ¬ c ∧ dom a) where
  complete a rest ha := by
    rw [if_neg ha.1]
    exact h.complete a rest ha.2
  sound bs a rest hd := by
    split at hd
    · cases hd
    · next hc => exact ⟨⟨hc, (h.sound bs a rest hd).1⟩, (h.sound bs a rest hd).2⟩

end Exact

/-! ## Repetition -/

/-- `n` values, one after the other. -/
def Decoder.many (d : Decoder ε α) : Nat → Decoder ε (List α)
  | 0 => pure []
  | n + 1 => do
    let a ← d
    let as ← many d n
    pure (a :: as)

variable {d : Decoder ε α} {enc : α → Bytes}

theorem Exact.many {dom : α → Prop} (h : Exact d enc dom)
    (n : Nat) : Exact (d.many n) (fun l => l.flatMap enc)
      (fun l => l.length = n ∧ ∀ a ∈ l, dom a) where
  complete l rest := by
    rintro ⟨rfl, hdom⟩
    induction l with
    | nil => rfl
    | cons a l ih =>
      rw [List.flatMap_cons, List.append_assoc, List.length_cons, Decoder.many, run_bind_eq_ok]
      refine ⟨a, _, h.complete a _ (hdom a List.mem_cons_self), ?_⟩
      rw [run_bind_eq_ok]
      exact ⟨l, rest, ih fun b hb => hdom b (List.mem_cons_of_mem _ hb), rfl⟩
  sound bs l rest hd := by
    induction n generalizing bs l rest with
    | zero =>
      cases hd
      exact ⟨⟨rfl, fun a ha => by cases ha⟩, rfl⟩
    | succ n ih =>
      rw [Decoder.many, run_bind_eq_ok] at hd
      obtain ⟨a, rest', ha, hd⟩ := hd
      obtain ⟨as, rest'', has, hd⟩ := run_bind_eq_ok.mp hd
      cases hd
      obtain ⟨hdom, rfl⟩ := h.sound _ _ _ ha
      obtain ⟨⟨rfl, hall⟩, rfl⟩ := ih _ _ _ has
      refine ⟨⟨rfl, ?_⟩, by simp⟩
      intro b hb
      rcases List.mem_cons.mp hb with rfl | hb
      · exact hdom
      · exact hall b hb

/-! ## Bytes and numbers -/

/-- The next `n` bytes; `e` if there are fewer. -/
def Decoder.take (e : ε) (n : Nat) : Decoder ε Bytes := fun bs =>
  if bs.length < n then .error e else .ok (bs.take n, bs.drop n)

theorem exact_take (e : ε) (n : Nat) :
    Exact (Decoder.take e n) (fun b => b) (fun b => b.length = n) where
  complete b rest hb := by
    subst hb
    simp [Decoder.take, StateT.run]
  sound bs b rest h := by
    simp only [Decoder.take, StateT.run] at h
    split at h
    · cases h
    · next hlen =>
      cases h
      exact ⟨List.length_take_of_le (Nat.not_lt.mp hlen), (List.take_append_drop ..).symm⟩

variable {n k w : Nat}

theorem length_take_of_not_lt {bs : Bytes} (h : ¬ bs.length < n) :
    (bs.take n).length = n := List.length_take_of_le (Nat.not_lt.mp h)

/-- The next `n` bytes as an array. -/
def Decoder.takeVector (e : ε) (n : Nat) : Decoder ε (List.Vector UInt8 n) := fun bs =>
  if h : bs.length < n then .error e
  else .ok (⟨bs.take n, length_take_of_not_lt h⟩, bs.drop n)

theorem exact_takeVector (e : ε) (n : Nat) :
    Exact (Decoder.takeVector e n) List.Vector.toList (fun _ => True) where
  complete v rest _ := by
    obtain ⟨b, rfl⟩ := v
    simp [Decoder.takeVector, StateT.run, List.Vector.toList]
  sound bs v rest h := by
    simp only [Decoder.takeVector, StateT.run] at h
    split at h
    · cases h
    · cases h
      exact ⟨trivial, (List.take_append_drop ..).symm⟩

/-- The number that little-endian bytes stand for. -/
def ofLeBytes : Bytes → Nat
  | [] => 0
  | b :: bs => b.toNat + 256 * ofLeBytes bs

theorem ofLeBytes_lt (bs : Bytes) : ofLeBytes bs < 256 ^ bs.length := by
  induction bs with
  | nil => exact Nat.one_pos
  | cons b bs ih =>
    have hb := b.toNat_lt
    simp only [ofLeBytes, List.length_cons, pow_succ]
    omega

theorem ofLeBytes_leBytes (h : n < 256 ^ k) : ofLeBytes (leBytes k n) = n := by
  induction k generalizing n with
  | zero =>
    rw [pow_zero, Nat.lt_one_iff] at h
    rw [h]
    rfl
  | succ k ih =>
    rw [pow_succ] at h
    simp only [leBytes, ofLeBytes, ih (Nat.div_lt_of_lt_mul (Nat.mul_comm _ _ ▸ h)),
      UInt8.toNat_ofNat']
    omega

theorem leBytes_ofLeBytes (bs : Bytes) : leBytes bs.length (ofLeBytes bs) = bs := by
  induction bs with
  | nil => rfl
  | cons b bs ih =>
    have hb := b.toNat_lt
    have hdiv : (b.toNat + 256 * ofLeBytes bs) / 256 = ofLeBytes bs := by omega
    simp only [List.length_cons, leBytes, ofLeBytes, hdiv, ih]
    congr 1
    apply UInt8.toNat_inj.mp
    simp only [UInt8.toNat_ofNat']
    omega

/-- A `w`-bit number of `k` little-endian bytes. -/
def Decoder.takeLe (e : ε) (k : Nat) {w : Nat} : Decoder ε (BitVec w) := do
  let b ← Decoder.take e k
  pure (BitVec.ofNat w (ofLeBytes b))

theorem putLe_ofNat (hw : w = 8 * k) {b : Bytes} (hb : b.length = k) :
    putLe k (BitVec.ofNat w (ofLeBytes b)) = b := by
  have hpow : 2 ^ w = 256 ^ k := by rw [hw, pow_mul]; norm_num
  have hlt : ofLeBytes b < 2 ^ w := by
    rw [hpow, ← hb]
    exact ofLeBytes_lt b
  rw [putLe, BitVec.toNat_ofNat, Nat.mod_eq_of_lt hlt, ← hb]
  exact leBytes_ofLeBytes b

theorem ofNat_putLe (hw : w = 8 * k) (x : BitVec w) :
    BitVec.ofNat w (ofLeBytes (putLe k x)) = x := by
  have hpow : 2 ^ w = 256 ^ k := by rw [hw, pow_mul]; norm_num
  rw [putLe, ofLeBytes_leBytes (hpow ▸ x.isLt)]
  exact BitVec.ofNat_toNat .. |>.trans (by simp)

theorem exact_takeLe (e : ε) (hw : w = 8 * k) :
    Exact (Decoder.takeLe e k : Decoder ε (BitVec w)) (putLe k) (fun _ => True) := by
  refine Exact.congr (Exact.bind (putLe k) ?_ (exact_take e k)
    (fun b => Exact.pure (BitVec.ofNat w (ofLeBytes b)))) (fun x => ?_)
    (fun x _ => List.append_nil _)
  · rintro b x hb rfl
    exact putLe_ofNat hw hb
  · simp only [ofNat_putLe hw, and_true, iff_true]
    exact length_leBytes k x.toNat

/-- The number that big-endian bytes stand for. -/
def ofBeBytes (bs : Bytes) : Nat := ofLeBytes bs.reverse

@[simp] theorem length_beBytes (k n : Nat) : (beBytes k n).length = k := by
  rw [beBytes, List.length_reverse, length_leBytes]

theorem ofBeBytes_beBytes (h : n < 256 ^ k) : ofBeBytes (beBytes k n) = n := by
  rw [ofBeBytes, beBytes, List.reverse_reverse, ofLeBytes_leBytes h]

/-- Numbers of a fixed width. -/
theorem selfDelimiting_beBytes {toNat : α → Nat}
    (hinj : Function.Injective toNat) (hlt : ∀ a, toNat a < 256 ^ k) :
    SelfDelimiting fun a => beBytes k (toNat a) :=
  .of_length (fun a => length_beBytes k (toNat a)) fun a b h => hinj (by
    have ha := ofBeBytes_beBytes (hlt a)
    rwa [show beBytes k (toNat a) = beBytes k (toNat b) from h, ofBeBytes_beBytes (hlt b),
      eq_comm] at ha)

theorem beBytes_u32_inj {n m : UInt32} {x y : Bytes}
    (h : beBytes 4 n.toNat ++ x = beBytes 4 m.toNat ++ y) : n = m ∧ x = y :=
  selfDelimiting_beBytes (fun _ _ => UInt32.toNat_inj.mp) UInt32.toNat_lt n m x y h

theorem beBytes_u64_inj {n m : UInt64} {x y : Bytes}
    (h : beBytes 8 n.toNat ++ x = beBytes 8 m.toNat ++ y) : n = m ∧ x = y :=
  selfDelimiting_beBytes (fun _ _ => UInt64.toNat_inj.mp) UInt64.toNat_lt n m x y h

theorem beBytes_ofBeBytes (bs : Bytes) : beBytes bs.length (ofBeBytes bs) = bs := by
  have h := leBytes_ofLeBytes bs.reverse
  rw [List.length_reverse] at h
  rw [beBytes, ofBeBytes, h, List.reverse_reverse]

theorem ofBeBytes_lt (bs : Bytes) : ofBeBytes bs < 256 ^ bs.length := by
  have h := ofLeBytes_lt bs.reverse
  rwa [List.length_reverse] at h

/-- A number of `k` big-endian bytes. -/
def Decoder.takeBe (e : ε) (k : Nat) : Decoder ε Nat := do
  let b ← Decoder.take e k
  pure (ofBeBytes b)

theorem exact_takeBe (e : ε) (k : Nat) :
    Exact (Decoder.takeBe e k) (beBytes k) (fun n => n < 256 ^ k) := by
  refine Exact.congr (Exact.bind (beBytes k) ?_ (exact_take e k)
    (fun b => Exact.pure (ofBeBytes b))) (fun n => ?_) (fun n _ => List.append_nil _)
  · rintro b n rfl rfl
    exact beBytes_ofBeBytes b
  · constructor
    · rintro ⟨-, hn⟩
      rw [hn]
      have h := ofBeBytes_lt (beBytes k n)
      rwa [length_beBytes] at h
    · intro hn
      exact ⟨length_beBytes k n, (ofBeBytes_beBytes hn).symm⟩

/-! ## Conversions -/

/-- A conversion that may refuse what was read. -/
def Decoder.ofOption (e : ε) : Option α → Decoder ε α
  | none => throw e
  | some a => pure a

theorem exact_ofOption (e : ε) (o : Option α) :
    Exact (Decoder.ofOption e o) (fun _ => []) (fun a => o = some a) where
  complete a rest ha := by rw [ha]; rfl
  sound bs a rest h := by
    cases o with
    | none => cases h
    | some b =>
      cases h
      exact ⟨rfl, rfl⟩

/-- The result of another decoder, its errors renamed by `f`. -/
def Decoder.ofExcept {ε' : Type} (f : ε' → ε) : Except ε' α → Decoder ε α
  | .error e => throw (f e)
  | .ok a => pure a

theorem exact_ofExcept {ε' : Type} (f : ε' → ε) (x : Except ε' α) :
    Exact (Decoder.ofExcept f x) (fun _ => []) (fun a => x = .ok a) where
  complete a rest ha := by rw [ha]; rfl
  sound bs a rest h := by
    cases x with
    | error e => cases h
    | ok b =>
      cases h
      exact ⟨rfl, rfl⟩

/-! ## Whole inputs -/

/-- Decode all of the input; `e` if something is left over. -/
def Decoder.all (d : Decoder ε α) (e : ε) (bs : Bytes) : Except ε α :=
  match d.run bs with
  | .error e' => .error e'
  | .ok (a, rest) => if rest ≠ [] then .error e else .ok a

theorem Exact.all_encode {dom : α → Prop} (h : Exact d enc dom)
    (e : ε) {a : α} (ha : dom a) : d.all e (enc a) = .ok a := by
  have hrun := h.complete a [] ha
  rw [List.append_nil] at hrun
  rw [Decoder.all, hrun]
  rfl

theorem Exact.all_eq_ok {dom : α → Prop} (h : Exact d enc dom)
    {e : ε} {bs : Bytes} {a : α} (hd : d.all e bs = .ok a) : dom a ∧ bs = enc a := by
  unfold Decoder.all at hd
  split at hd
  · cases hd
  · next b rest hrun =>
    split at hd
    · cases hd
    · next hrest =>
      cases hd
      obtain ⟨ha, hbs⟩ := h.sound _ _ _ hrun
      rw [not_not.mp hrest, List.append_nil] at hbs
      exact ⟨ha, hbs⟩

end P2P333.Lib
