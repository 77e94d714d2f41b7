import P2P333.Lib.Words

/-!
# Readers

A reader looks at a slice of bytes and returns a value and how many bytes it has consumed. What is
read next is a slice again, from the position on. A slice or an index out of range is a panic,
`none`.

A decoder takes bytes off the front of its input and has no positions. `Mirrors r d` says that the
reader `r` does what the decoder `d` does, and never panics.
-/

namespace P2P333.Lib

variable {ε α β : Type}

/-- A value and the number of bytes consumed, or an error. A panic is `none`. -/
abbrev Reader (ε α : Type) := Bytes → Option (Except ε (α × Nat))

/-- `&buf[pos..]`. -/
def sliceFrom (buf : Bytes) (pos : Nat) : Option Bytes :=
  if pos ≤ buf.length then some (buf.drop pos) else none

/-- `&buf[..n]`. -/
def sliceTo (buf : Bytes) (n : Nat) : Option Bytes :=
  if n ≤ buf.length then some (buf.take n) else none

/-- Reading on in a buffer, from a position to the next. -/
abbrev Scanner (ε α : Type) := ReaderT Bytes (StateT Nat (ExceptT ε Option)) α

namespace Scanner

/-- `let (a, n) = read(&buf[pos..])?; pos += n;`. -/
def field (r : Reader ε α) : Scanner ε α := fun buf pos =>
  (sliceFrom buf pos).bind fun slice => (r slice).map fun
    | .error e => .error e
    | .ok (a, n) => .ok (a, pos + n)

/-- `let b = buf[pos]; pos += 1;`, and `e` at the end of the buffer. -/
def byte (e : Bytes → ε) : Scanner ε UInt8 := fun buf pos =>
  if pos ≥ buf.length then some (.error (e (buf.drop pos)))
  else buf[pos]?.map fun b => .ok (b, pos + 1)

/-- `n` values, one after the other. -/
def many (m : Scanner ε α) : Nat → Scanner ε (List α)
  | 0 => pure []
  | n + 1 => do
    let a ← m
    let as ← many m n
    pure (a :: as)

/-- From the beginning of the buffer on. -/
def reader (m : Scanner ε α) : Reader ε α := fun buf => m buf 0

end Scanner

/-- A fixed number of bytes; `e` if there are fewer. -/
def Reader.fixed (e : Nat → Bytes → ε) (n : Nat) (f : Bytes → α) : Reader ε α := fun buf =>
  if buf.length < n then some (.error (e n buf))
  else (sliceTo buf n).map fun bytes => .ok (f bytes, n)

/-! ## What decoders do -/

/-- What is left tells how many bytes were consumed. -/
def outcome (buf : Bytes) : Except ε (α × Bytes) → Except ε (α × Nat)
  | .error e => .error e
  | .ok (a, rest) => .ok (a, buf.length - rest.length)

structure Mirrors (r : Reader ε α) (d : Decoder ε α) : Prop where
  run : ∀ buf, r buf = some (outcome buf (d.run buf))
  suffix : ∀ buf a rest, d.run buf = .ok (a, rest) → rest <:+ buf

/-- The same, from any position on. -/
structure Follows (m : Scanner ε α) (d : Decoder ε α) : Prop where
  run : ∀ buf pos, pos ≤ buf.length → m buf pos = some (outcome buf (d.run (buf.drop pos)))
  suffix : ∀ buf a rest, d.run buf = .ok (a, rest) → rest <:+ buf

namespace Follows

variable {m : Scanner ε α} {d : Decoder ε α}

theorem pure (a : α) : Follows (Pure.pure a : Scanner ε α) (Pure.pure a) where
  run buf pos hpos := by
    change some (Except.ok (a, pos)) = some (Except.ok (a, buf.length - (buf.drop pos).length))
    rw [List.length_drop, Nat.sub_sub_self hpos]
  suffix buf b rest h := by
    cases h
    exact List.suffix_refl _

theorem bind {k : α → Scanner ε β} {k' : α → Decoder ε β} (h : Follows m d)
    (hk : ∀ a, Follows (k a) (k' a)) : Follows (m >>= k) (d >>= k') where
  run buf pos hpos := by
    rw [StateT.run_bind]
    change (m buf pos).bind _ = _
    rw [h.run buf pos hpos]
    cases hd : d.run (buf.drop pos) with
    | error e => rfl
    | ok p =>
      obtain ⟨a, rest⟩ := p
      -- What the first has left begins at the position that it has reached.
      have hsuffix : rest <:+ buf := (h.suffix _ _ _ hd).trans (List.drop_suffix _ _)
      have hnext := (hk a).run buf (buf.length - rest.length) (Nat.sub_le _ _)
      rw [← List.suffix_iff_eq_drop.mp hsuffix] at hnext
      exact hnext
  suffix buf b rest hrun := by
    obtain ⟨a, mid, ha, hb⟩ := Exact.run_bind_eq_ok.mp hrun
    exact ((hk a).suffix _ _ _ hb).trans (h.suffix _ _ _ ha)

theorem field {r : Reader ε α} (h : Mirrors r d) : Follows (Scanner.field r) d where
  run buf pos hpos := by
    unfold Scanner.field
    rw [sliceFrom, if_pos hpos, Option.bind_some, h.run, Option.map_some]
    cases hd : d.run (buf.drop pos) with
    | error e => rfl
    | ok p =>
      have hle := (h.suffix _ _ _ hd).length_le
      rw [List.length_drop] at hle
      simp only [outcome, List.length_drop]
      congr 3
      omega
  suffix := h.suffix

theorem many (h : Follows m d) (n : Nat) : Follows (m.many n) (d.many n) := by
  induction n with
  | zero => exact pure []
  | succ n ih => exact h.bind fun a => ih.bind fun as => pure (a :: as)

/-- A byte at the position is the first of the bytes from there on. -/
theorem byte (e : Bytes → ε) : Follows (Scanner.byte e) (Decoder.u8 fun _ => e) where
  run buf pos hpos := by
    unfold Scanner.byte
    cases hdrop : buf.drop pos with
    | nil =>
      rw [if_pos (List.drop_eq_nil_iff.mp hdrop)]
      rfl
    | cons b rest =>
      have hlt : pos < buf.length := by
        by_contra hout
        rw [List.drop_eq_nil_of_le (Nat.not_lt.mp hout)] at hdrop
        cases hdrop
      have hhead : buf[pos]? = some b := by
        rw [← List.head?_drop, hdrop]
        rfl
      have hrest : rest.length + (pos + 1) = buf.length := by
        have hlength := congrArg List.length hdrop
        rw [List.length_drop, List.length_cons] at hlength
        omega
      have hread : (Decoder.u8 fun _ => e).run (b :: rest) = .ok (b, rest) :=
        (exact_u8 _).complete b rest trivial
      rw [if_neg (Nat.not_le.mpr hlt), hhead, hread, outcome, ← hrest, Nat.add_sub_cancel_left]
      rfl
  suffix buf a rest h := ⟨[a], ((exact_u8 _).sound _ _ _ h).2.symm⟩

theorem reader (h : Follows m d) : Mirrors m.reader d where
  run buf := h.run buf 0 (Nat.zero_le _)
  suffix := h.suffix

end Follows

theorem mirrors_fixed (e : Nat → Bytes → ε) (n : Nat) (f : Bytes → α) :
    Mirrors (Reader.fixed e n f) (do
      let b ← Decoder.takeOr e n
      pure (f b)) where
  run buf := by
    rw [StateT.run_bind]
    by_cases hlen : buf.length < n
    · have htake : (Decoder.takeOr e n).run buf = .error (e n buf) := if_pos hlen
      rw [Reader.fixed, if_pos hlen, htake]
      rfl
    · have htake : (Decoder.takeOr e n).run buf = .ok (buf.take n, buf.drop n) := if_neg hlen
      have hle := Nat.not_lt.mp hlen
      rw [Reader.fixed, if_neg hlen, sliceTo, if_pos hle, htake]
      change some (Except.ok (f (buf.take n), n)) =
        some (Except.ok (f (buf.take n), buf.length - (buf.drop n).length))
      rw [List.length_drop, Nat.sub_sub_self hle]
  suffix buf a rest h := by
    obtain ⟨b, mid, hb, ha⟩ := Exact.run_bind_eq_ok.mp h
    cases ha
    exact ⟨b, ((exact_takeOr e n).sound _ _ _ hb).2.symm⟩

end P2P333.Lib
