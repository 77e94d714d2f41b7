import P2P333.Lib.Codec

/-!
# Reading machine words

Signed words from little-endian bytes. Bytes, arrays and big-endian words off the front of the
input. What is reported when the input is too short may depend on what is left of it. Encoders that
delimit themselves on the values of a domain, and decoders that read back what was encoded but may
accept more.
-/

namespace P2P333.Lib

variable {ε α β : Type}

/-! ## Signed words -/

/-- `i32::from_le_bytes`. -/
def i32OfLe (bytes : Bytes) : Int32 := (UInt32.ofNat (ofLeBytes bytes)).toInt32

theorem i32OfLe_leBytes (x : Int32) : i32OfLe (leBytes 4 x.toUInt32.toNat) = x := by
  have hlt : x.toUInt32.toNat < 256 ^ 4 := x.toUInt32.toNat_lt
  rw [i32OfLe, ofLeBytes_leBytes hlt, UInt32.ofNat_toNat]
  rfl

/-! ## Decoders -/

/-- The next `n` bytes; `e n` of what is left if there are fewer. -/
def Decoder.takeOr (e : Nat → Bytes → ε) (n : Nat) : Decoder ε Bytes := fun bs =>
  if bs.length < n then .error (e n bs) else .ok (bs.take n, bs.drop n)

theorem exact_takeOr (e : Nat → Bytes → ε) (n : Nat) :
    Exact (Decoder.takeOr e n) (fun b => b) (fun b => b.length = n) where
  complete b rest hb := by
    subst hb
    simp [Decoder.takeOr, StateT.run]
  sound bs b rest h := by
    simp only [Decoder.takeOr, StateT.run] at h
    split at h
    · cases h
    · next hlen =>
      cases h
      exact ⟨List.length_take_of_le (Nat.not_lt.mp hlen), (List.take_append_drop ..).symm⟩

/-- The next `n` bytes as an array. -/
def Decoder.vectorOr (e : Nat → Bytes → ε) (n : Nat) : Decoder ε (List.Vector UInt8 n) := fun bs =>
  if h : bs.length < n then .error (e n bs)
  else .ok (⟨bs.take n, length_take_of_not_lt h⟩, bs.drop n)

theorem exact_vectorOr (e : Nat → Bytes → ε) (n : Nat) :
    Exact (Decoder.vectorOr e n) List.Vector.toList (fun _ => True) where
  complete v rest _ := by
    obtain ⟨b, rfl⟩ := v
    simp [Decoder.vectorOr, StateT.run, List.Vector.toList]
  sound bs v rest h := by
    simp only [Decoder.vectorOr, StateT.run] at h
    split at h
    · cases h
    · cases h
      exact ⟨trivial, (List.take_append_drop ..).symm⟩

/-- A word of `k` bytes, the highest first. -/
def Decoder.wordOr (e : Nat → Bytes → ε) (k : Nat) (ofNat : Nat → α) : Decoder ε α := do
  let b ← Decoder.takeOr e k
  pure (ofNat (ofBeBytes b))

theorem exact_wordOr (e : Nat → Bytes → ε) {k : Nat} {ofNat : Nat → α} {toNat : α → Nat}
    (hof : ∀ x, ofNat (toNat x) = x) (hto : ∀ n < 256 ^ k, toNat (ofNat n) = n)
    (hlt : ∀ x, toNat x < 256 ^ k) :
    Exact (Decoder.wordOr e k ofNat) (fun x => beBytes k (toNat x)) (fun _ => True) := by
  refine Exact.congr (Exact.bind (fun x => beBytes k (toNat x)) ?_ (exact_takeOr e k)
    (fun b => Exact.pure (ofNat (ofBeBytes b)))) (fun x => ?_) (fun x _ => List.append_nil _)
  · rintro b x hb rfl
    have hn := ofBeBytes_lt b
    rw [hb] at hn
    rw [hto _ hn, ← hb, beBytes_ofBeBytes]
  · simp only [length_beBytes, ofBeBytes_beBytes (hlt x), hof, and_self]

def Decoder.u8 (e : Nat → Bytes → ε) : Decoder ε UInt8 := Decoder.wordOr e 1 UInt8.ofNat

def Decoder.u16be (e : Nat → Bytes → ε) : Decoder ε UInt16 := Decoder.wordOr e 2 UInt16.ofNat

def Decoder.u32be (e : Nat → Bytes → ε) : Decoder ε UInt32 := Decoder.wordOr e 4 UInt32.ofNat

def Decoder.u64be (e : Nat → Bytes → ε) : Decoder ε UInt64 := Decoder.wordOr e 8 UInt64.ofNat

theorem beBytes_one (x : UInt8) : beBytes 1 x.toNat = [x] := by
  simp [beBytes, leBytes]

section

variable (e : Nat → Bytes → ε)

theorem exact_u8 : Exact (Decoder.u8 e) (fun x => [x]) (fun _ => True) :=
  (exact_wordOr e (fun _ => UInt8.ofNat_toNat) (fun n hn => by
    rw [UInt8.toNat_ofNat']; exact Nat.mod_eq_of_lt hn) fun x => x.toNat_lt).congr
    (fun _ => Iff.rfl) fun x _ => beBytes_one x

theorem exact_u16be : Exact (Decoder.u16be e) (fun x => beBytes 2 x.toNat) (fun _ => True) :=
  exact_wordOr e (fun _ => UInt16.ofNat_toNat) (fun n hn => by
    rw [UInt16.toNat_ofNat']; exact Nat.mod_eq_of_lt hn) fun x => x.toNat_lt

theorem exact_u32be : Exact (Decoder.u32be e) (fun x => beBytes 4 x.toNat) (fun _ => True) :=
  exact_wordOr e (fun _ => UInt32.ofNat_toNat) (fun n hn => by
    rw [UInt32.toNat_ofNat']; exact Nat.mod_eq_of_lt hn) fun x => x.toNat_lt

theorem exact_u64be : Exact (Decoder.u64be e) (fun x => beBytes 8 x.toNat) (fun _ => True) :=
  exact_wordOr e (fun _ => UInt64.ofNat_toNat) (fun n hn => by
    rw [UInt64.toNat_ofNat']; exact Nat.mod_eq_of_lt hn) fun x => x.toNat_lt

end

/-! ## Delimiting on a domain -/

/-- The encoding of a value of the domain, followed by anything, determines the value and the rest.
-/
def Delimits (enc : α → Bytes) (dom : α → Prop) : Prop :=
  ∀ a b x y, dom a → dom b → enc a ++ x = enc b ++ y → a = b ∧ x = y

namespace Delimits

variable {enc : α → Bytes} {dom : α → Prop} {enc' : β → Bytes} {dom' : β → Prop}

theorem injOn (h : Delimits enc dom) {a b : α} (ha : dom a) (hb : dom b) (heq : enc a = enc b) :
    a = b :=
  (h a b [] [] ha hb (by rw [heq])).1

/-- One value after the other. -/
theorem append (h : Delimits enc dom) (h' : Delimits enc' dom') :
    Delimits (fun p : α × β => enc p.1 ++ enc' p.2) (fun p => dom p.1 ∧ dom' p.2) := by
  rintro ⟨a, a'⟩ ⟨b, b'⟩ x y ⟨ha, ha'⟩ ⟨hb, hb'⟩ heq
  simp only [List.append_assoc] at heq
  obtain ⟨rfl, hrest⟩ := h a b _ _ ha hb heq
  obtain ⟨rfl, rfl⟩ := h' a' b' x y ha' hb' hrest
  exact ⟨rfl, rfl⟩

end Delimits

/-! ## Reading back -/

/-- An encoding is read back, whatever follows it. -/
def Reads (d : Decoder ε α) (enc : α → Bytes) (dom : α → Prop) : Prop :=
  ∀ a rest, dom a → d.run (enc a ++ rest) = .ok (a, rest)

theorem Exact.reads {d : Decoder ε α} {enc : α → Bytes} {dom : α → Prop} (h : Exact d enc dom) :
    Reads d enc dom := h.complete

namespace Reads

variable {d : Decoder ε α} {enc : α → Bytes} {dom : α → Prop}

/-- What can be read back is delimited. -/
theorem delimits (h : Reads d enc dom) : Delimits enc dom := by
  intro a b x y ha hb heq
  have hread := (h a x ha).symm.trans (heq ▸ h b y hb)
  cases hread
  exact ⟨rfl, rfl⟩

/-- The next decoder reads on behind the encoding. -/
theorem run_bind (h : Reads d enc dom) (k : α → Decoder ε β) {a : α} (ha : dom a) (rest : Bytes) :
    (d >>= k).run (enc a ++ rest) = (k a).run rest := by
  rw [StateT.run_bind, h a rest ha]
  rfl

theorem many (h : Reads d enc dom) {l : List α} (hl : ∀ a ∈ l, dom a) (rest : Bytes) :
    (d.many l.length).run (l.flatMap enc ++ rest) = .ok (l, rest) := by
  induction l with
  | nil => rfl
  | cons a l ih =>
    rw [List.flatMap_cons, List.append_assoc, List.length_cons, Decoder.many,
      h.run_bind _ (hl a List.mem_cons_self), StateT.run_bind,
      ih fun b hb => hl b (List.mem_cons_of_mem _ hb)]
    rfl

end Reads

end P2P333.Lib
