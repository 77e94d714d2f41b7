import P2P333.Substrate.Wal.Handle

/-!
# What a log looks like on disk

A log that was made by `create` is a chain of segments: each one has a header with the checksum at
its start, and the frames of consecutive entries. `Layout` says which entries lie in which segment
and how many of the tail are on stable storage; `Layout.dir` and `Layout.handle` are the bytes and
the handle that go with it.

Results:
1. `append_layout`, `sync_layout`, `release_layout`: the operations on the bytes are operations on
   the layout.
2. `scanSealed_layout`: the sealed segments replay, from whichever of them is the oldest.
-/

namespace P2P333.Substrate

open Lib

/-! ## Definitions -/

/-- What is fixed at the start of a segment: its name, the checksum of its seed, and the number of
its first entry. The name of the oldest segment may say another number. -/
structure Head where
  seq : Nat
  name : Nat
  crc : UInt32
  first : Nat
deriving DecidableEq

/-- `synced` counts the entries of the tail that are on stable storage. -/
structure Layout where
  head : Head
  sealed : List (List Bytes)
  tail : List Bytes
  synced : Nat
deriving DecidableEq

section Layout

variable [Crc32c] (metadata : Bytes)

/-- The checksum behind the header. -/
def Head.bodyCrc (h : Head) : UInt32 := nextCrc h.crc .metadata metadata

/-- The bytes of a segment with these payloads. -/
def Head.bytes (h : Head) (ps : List Bytes) : Bytes :=
  header metadata h.crc ++ entryFrames (h.bodyCrc metadata) h.first ps

def Head.endCrc (h : Head) (ps : List Bytes) : UInt32 :=
  entriesCrc (h.bodyCrc metadata) h.first ps

/-- The head of the next segment. -/
def Head.next (h : Head) (ps : List Bytes) : Head :=
  ⟨h.seq + 1, h.first + ps.length, h.endCrc metadata ps, h.first + ps.length⟩

/-- The head behind several segments. -/
def Head.after : Head → List (List Bytes) → Head
  | h, [] => h
  | h, ps :: rest => (h.next metadata ps).after rest

/-- A segment with its first `k` entries on stable storage. -/
def Head.segment (h : Head) (ps : List Bytes) (k : Nat) : Segment :=
  ⟨h.seq, h.name, h.bytes metadata ps, (h.bytes metadata (ps.take k)).length⟩

def Head.sealedSegments : Head → List (List Bytes) → List Segment
  | _, [] => []
  | h, ps :: rest =>
    h.segment metadata ps ps.length :: (h.next metadata ps).sealedSegments rest

namespace Layout

def tailHead (l : Layout) : Head := l.head.after metadata l.sealed

def dir (l : Layout) : Dir :=
  l.head.sealedSegments metadata l.sealed ++
  [(l.tailHead metadata).segment metadata l.tail l.synced]

def handle (l : Layout) (segmentSize : Nat) : Wal :=
  let h := l.tailHead metadata
  ⟨metadata, (h.bytes metadata l.tail).length, h.endCrc metadata l.tail, h.seq,
    h.first + l.tail.length, h.first + l.synced - 1, decide (l.synced < l.tail.length), segmentSize⟩

/-- All payloads, oldest first. -/
def payloads (l : Layout) : List Bytes := l.sealed.flatten ++ l.tail

def entries (l : Layout) : List Entry := numbered l.head.first l.payloads

/-- The entries on stable storage. -/
def durable (l : Layout) : List Entry :=
  numbered l.head.first (l.sealed.flatten ++ l.tail.take l.synced)

/-- The entries of the tail that are not on stable storage. -/
def unsynced (l : Layout) : List Entry :=
  numbered (l.head.first + l.sealed.flatten.length + l.synced) (l.tail.drop l.synced)

def nextSeq (l : Layout) : Nat := l.head.first + l.payloads.length

/-- Every sealed segment has an entry: a segment is cut by the append that fills it. -/
structure Valid (l : Layout) : Prop where
  fits : ∀ p ∈ l.payloads, p.length ≤ maxPayload
  sealed_ne : ∀ ps ∈ l.sealed, ps ≠ []
  synced_le : l.synced ≤ l.tail.length
  first_pos : 0 < l.head.first
  nextSeq_lt : l.nextSeq < 2 ^ 64
  seq_lt : l.head.seq + l.sealed.length < 2 ^ 64

/-! ### Operations on the layout -/

def write (l : Layout) (payload : Bytes) : Layout := { l with tail := l.tail ++ [payload] }

def sync (l : Layout) : Layout := { l with synced := l.tail.length }

def cut (l : Layout) : Layout := { l with sealed := l.sealed ++ [l.tail], tail := [], synced := 0 }

def append (l : Layout) (segmentSize : Nat) (payload : Bytes) : Layout :=
  if ((l.tailHead metadata).bytes metadata (l.tail ++ [payload])).length ≥ segmentSize then
    (l.write payload).cut
  else l.write payload

/-- The oldest `k` segments are gone. -/
def drop (l : Layout) (k : Nat) : Layout :=
  { l with head := l.head.after metadata (l.sealed.take k), sealed := l.sealed.drop k }

end Layout

/-! ## Heads and frames -/

variable {metadata}

theorem entryFrames_append (crc : UInt32) (seq : Nat) (ps qs : List Bytes) :
    entryFrames crc seq (ps ++ qs) =
      entryFrames crc seq ps ++ entryFrames (entriesCrc crc seq ps) (seq + ps.length) qs := by
  induction ps generalizing crc seq with
  | nil => rfl
  | cons p ps ih =>
    simp only [List.cons_append, entryFrames, entriesCrc, ih, List.append_assoc, List.length_cons]
    rw [Nat.add_assoc seq 1, Nat.add_comm 1]

theorem entriesCrc_append (crc : UInt32) (seq : Nat) (ps qs : List Bytes) :
    entriesCrc crc seq (ps ++ qs) =
      entriesCrc (entriesCrc crc seq ps) (seq + ps.length) qs := by
  induction ps generalizing crc seq with
  | nil => rfl
  | cons p ps ih =>
    simp only [List.cons_append, entriesCrc, ih, List.length_cons]
    rw [Nat.add_assoc seq 1, Nat.add_comm 1]

omit [Crc32c] in
theorem numbered_append (seq : Nat) (ps qs : List Bytes) :
    numbered seq (ps ++ qs) = numbered seq ps ++ numbered (seq + ps.length) qs := by
  induction ps generalizing seq with
  | nil => rfl
  | cons p ps ih =>
    simp only [List.cons_append, numbered, ih, List.length_cons]
    rw [Nat.add_assoc seq 1, Nat.add_comm 1]

omit [Crc32c] in
@[simp] theorem length_numbered (seq : Nat) (ps : List Bytes) :
    (numbered seq ps).length = ps.length := by
  induction ps generalizing seq with
  | nil => rfl
  | cons p ps ih => simp [numbered, ih]

section

variable (h : Head)

theorem Head.bytes_append (ps qs : List Bytes) : h.bytes metadata (ps ++ qs) =
      h.bytes metadata ps ++ entryFrames (h.endCrc metadata ps) (h.first + ps.length) qs := by
  simp only [Head.bytes, Head.endCrc, entryFrames_append, List.append_assoc]

/-- A segment, cut behind its first `k` entries. -/
theorem Head.bytes_split {ps : List Bytes} {k : Nat} (hk : k ≤ ps.length) :
    h.bytes metadata ps = h.bytes metadata (ps.take k) ++
      entryFrames (h.endCrc metadata (ps.take k)) (h.first + k) (ps.drop k) := by
  have happ : h.bytes metadata (ps.take k ++ ps.drop k) = _ := h.bytes_append ..
  rwa [List.take_append_drop, List.length_take_of_le hk] at happ

theorem Head.endCrc_split {ps : List Bytes} {k : Nat} (hk : k ≤ ps.length) : h.endCrc metadata ps =
      entriesCrc (h.endCrc metadata (ps.take k)) (h.first + k) (ps.drop k) := by
  have happ : h.endCrc metadata (ps.take k ++ ps.drop k) = _ := entriesCrc_append ..
  rwa [List.take_append_drop, List.length_take_of_le hk] at happ

theorem Head.after_concat (pss : List (List Bytes)) (ps : List Bytes) :
    h.after metadata (pss ++ [ps]) = (h.after metadata pss).next metadata ps := by
  induction pss generalizing h with
  | nil => rfl
  | cons qs pss ih => simp only [List.cons_append, Head.after, ih]

theorem Head.after_append (pss qss : List (List Bytes)) :
    h.after metadata (pss ++ qss) = (h.after metadata pss).after metadata qss := by
  induction pss generalizing h with
  | nil => rfl
  | cons qs pss ih => simp only [List.cons_append, Head.after, ih]

theorem Head.sealedSegments_append (pss qss : List (List Bytes)) :
    h.sealedSegments metadata (pss ++ qss) =
      h.sealedSegments metadata pss ++ (h.after metadata pss).sealedSegments metadata qss := by
  induction pss generalizing h with
  | nil => rfl
  | cons ps pss ih => simp only [List.cons_append, Head.sealedSegments, Head.after, ih]

theorem Head.first_after (pss : List (List Bytes)) :
    (h.after metadata pss).first = h.first + pss.flatten.length := by
  induction pss generalizing h with
  | nil => rfl
  | cons ps pss ih =>
    rw [Head.after, ih, Head.next, List.flatten_cons, List.length_append, Nat.add_assoc]

theorem Head.seq_after (pss : List (List Bytes)) :
    (h.after metadata pss).seq = h.seq + pss.length := by
  induction pss generalizing h with
  | nil => rfl
  | cons ps pss ih =>
    rw [Head.after, ih, Head.next, List.length_cons, Nat.add_assoc, Nat.add_comm 1]

@[simp] theorem Head.length_sealedSegments (pss : List (List Bytes)) :
    (h.sealedSegments metadata pss).length = pss.length := by
  induction pss generalizing h with
  | nil => rfl
  | cons ps pss ih => simp [Head.sealedSegments, ih]

theorem Head.map_seq_sealedSegments (pss : List (List Bytes)) :
    (h.sealedSegments metadata pss).map Segment.seq = List.range' h.seq pss.length := by
  induction pss generalizing h with
  | nil => rfl
  | cons ps pss ih =>
    rw [Head.sealedSegments, List.map_cons, ih, List.length_cons, List.range'_succ]
    rfl

end

/-! ## The operations -/

namespace Layout

variable {l : Layout}

theorem nextSeq_eq (metadata : Bytes) (l : Layout) :
    l.nextSeq = (l.tailHead metadata).first + l.tail.length := by
  rw [nextSeq, payloads, tailHead, Head.first_after, List.length_append, Nat.add_assoc]

theorem seq_tailHead (l : Layout) :
    (l.tailHead metadata).seq = l.head.seq + l.sealed.length := by
  rw [tailHead, Head.seq_after]

theorem contiguous (h : l.Valid) : Contiguous (l.dir metadata) := by
  have hseq := h.seq_lt
  refine ⟨l.head.seq, ?_, ?_⟩
  · rw [dir, List.map_append, Head.map_seq_sealedSegments, List.length_append,
      Head.length_sealedSegments, List.length_singleton, List.range'_concat, Nat.one_mul]
    simp [Head.segment, seq_tailHead]
  · rw [dir, List.length_append, Head.length_sealedSegments, List.length_singleton]
    omega

theorem dir_ne_nil (l : Layout) : l.dir metadata ≠ [] := by
  simp [dir]

theorem segment_sync (h : Head) (ps : List Bytes) (k : Nat) :
    (h.segment metadata ps k).sync = h.segment metadata ps ps.length := by
  simp [Head.segment, Segment.sync]

theorem write_layout (h : l.Valid) (segmentSize : Nat) (payload : Bytes) :
    (l.handle metadata segmentSize).writeEntry (l.dir metadata) payload =
      ((l.write payload).handle metadata segmentSize, (l.write payload).dir metadata) := by
  have hle := h.synced_le
  have hbytes : (l.tailHead metadata).bytes metadata (l.tail ++ [payload]) =
      (l.tailHead metadata).bytes metadata l.tail ++ entryFrame
        ((l.tailHead metadata).endCrc metadata l.tail)
        ((l.tailHead metadata).first + l.tail.length) payload := by
    rw [Head.bytes_append]
    simp [entryFrames]
  have hcrc : (l.tailHead metadata).endCrc metadata (l.tail ++ [payload]) = entryCrc
      ((l.tailHead metadata).endCrc metadata l.tail)
      ((l.tailHead metadata).first + l.tail.length) payload := by
    rw [Head.endCrc, entriesCrc_append]
    rfl
  have hhead : (l.write payload).tailHead metadata = l.tailHead metadata := rfl
  refine Prod.ext ?_ ?_
  · unfold Wal.writeEntry handle
    rw [hhead]
    simp only [write, hbytes, hcrc, List.length_append, List.length_singleton,
      Nat.add_assoc, Wal.mk.injEq, true_and, and_true]
    exact (decide_eq_true (by omega)).symm
  · unfold Wal.writeEntry dir
    dsimp only
    rw [List.modifyLast_concat, hhead]
    simp only [write, Head.segment, Segment.write, handle, hbytes,
      List.take_append_of_le_length hle]

theorem cut_layout (h : l.Valid) {segmentSize : Nat} {w : Wal} {dir : Dir}
    (hcut : (l.handle metadata segmentSize).cut (l.dir metadata) = .ok (w, dir)) :
    w = l.cut.handle metadata segmentSize ∧ dir = l.cut.dir metadata ∧
      l.head.seq + l.cut.sealed.length < 2 ^ 64 := by
  have hpos := h.first_pos
  have hhead : l.cut.tailHead metadata = (l.tailHead metadata).next metadata l.tail :=
    Head.after_concat ..
  have hempty : ∀ h : Head, h.bytes metadata [] = header metadata h.crc :=
    fun h => List.append_nil _
  have hfirst : 0 < (l.tailHead metadata).first := by
    rw [tailHead, Head.first_after]
    omega
  unfold Wal.cut at hcut
  split at hcut
  · cases hcut
  next hseq =>
  cases hcut
  refine ⟨?_, ?_, ?_⟩
  · unfold handle
    rw [hhead]
    simp only [cut, Head.next, hempty, List.length_nil, Nat.add_zero, Wal.mk.injEq, true_and,
      and_true]
    exact ⟨rfl, (decide_eq_false (Nat.lt_irrefl 0)).symm⟩
  · have hsealed : l.head.sealedSegments metadata (l.sealed ++ [l.tail]) =
        l.head.sealedSegments metadata l.sealed ++
          [(l.tailHead metadata).segment metadata l.tail l.tail.length] := by
      rw [Head.sealedSegments_append]
      rfl
    unfold dir
    rw [List.modifyLast_concat, segment_sync, hhead]
    simp only [cut, hsealed, Head.segment, hempty, List.take_nil]
    rfl
  · have : (l.tailHead metadata).seq = l.head.seq + l.sealed.length := seq_tailHead l
    simp only [handle] at hseq
    simp only [cut, List.length_append, List.length_singleton]
    omega

omit [Crc32c] in
theorem write_valid (h : l.Valid) {payload : Bytes} (hfit : payload.length ≤ maxPayload)
    (hseq : l.nextSeq + 1 < 2 ^ 64) : (l.write payload).Valid where
  fits p hp := by
    simp only [payloads, write, ← List.append_assoc, List.mem_append, List.mem_singleton] at hp
    rcases hp with hp | rfl
    · exact h.fits p (List.mem_append.mpr hp)
    · exact hfit
  sealed_ne := h.sealed_ne
  synced_le := by
    have := h.synced_le
    simp only [write, List.length_append]
    omega
  first_pos := h.first_pos
  nextSeq_lt := by
    simp only [nextSeq, payloads, List.length_append, write, List.length_singleton] at hseq ⊢
    omega
  seq_lt := h.seq_lt

omit [Crc32c] in
theorem cut_valid (h : l.Valid) (hne : l.tail ≠ [])
    (hseq : l.head.seq + l.cut.sealed.length < 2 ^ 64) : l.cut.Valid where
  fits p hp := h.fits p (by simpa [payloads, cut] using hp)
  sealed_ne ps hps := by
    rcases List.mem_append.mp hps with hps | hps
    · exact h.sealed_ne ps hps
    · rwa [List.mem_singleton.mp hps]
  synced_le := Nat.zero_le _
  first_pos := h.first_pos
  nextSeq_lt := by simpa [nextSeq, payloads, cut] using h.nextSeq_lt
  seq_lt := hseq

/-- Appending to the bytes is appending to the layout. -/
theorem append_layout (h : l.Valid) {segmentSize seq : Nat} {payload : Bytes} {w : Wal} {dir : Dir}
    (happ : (l.handle metadata segmentSize).append (l.dir metadata) payload = .ok (seq, w, dir)) :
    seq = l.nextSeq ∧ w = (l.append metadata segmentSize payload).handle metadata segmentSize ∧
      dir = (l.append metadata segmentSize payload).dir metadata ∧
      (l.append metadata segmentSize payload).Valid := by
  have hnext : (l.handle metadata segmentSize).nextSeq = l.nextSeq := (nextSeq_eq metadata l).symm
  unfold Wal.append at happ
  split at happ
  · cases happ
  next hfit =>
  split at happ
  · cases happ
  next hseq =>
  rw [hnext] at hseq
  have hvalid := write_valid h (Nat.not_lt.mp hfit) (Nat.not_le.mp hseq)
  dsimp only at happ
  rw [write_layout h, hnext] at happ
  unfold append
  dsimp only at happ
  split at happ
  · next hsize =>
    have hsize : ((l.tailHead metadata).bytes metadata (l.tail ++ [payload])).length ≥
      segmentSize := hsize
    rw [if_pos hsize]
    split at happ
    · cases happ
    next hcut =>
    cases happ
    obtain ⟨hw, hdir, hlt⟩ := cut_layout hvalid hcut
    exact ⟨rfl, hw, hdir, cut_valid hvalid (by simp [write]) hlt⟩
  · next hsize =>
    have hsize : ¬ ((l.tailHead metadata).bytes metadata (l.tail ++ [payload])).length ≥
      segmentSize := hsize
    rw [if_neg hsize]
    cases happ
    exact ⟨rfl, rfl, rfl, hvalid⟩

@[simp] theorem payloads_append (l : Layout) (segmentSize : Nat) (payload : Bytes) :
    (l.append metadata segmentSize payload).payloads = l.payloads ++ [payload] := by
  unfold append
  split
  · simp [payloads, cut, write]
  · simp [payloads, write]

@[simp] theorem head_append (l : Layout) (segmentSize : Nat) (payload : Bytes) :
    (l.append metadata segmentSize payload).head = l.head := by
  unfold append
  split
  · rfl
  · rfl

/-- Every segment starts with a header. -/
theorem headed (l : Layout) {s : Segment} (hs : s ∈ l.dir metadata) :
    ∃ crc rest, s.bytes = header metadata crc ++ rest := by
  have hsealed : ∀ (pss : List (List Bytes)) (hd : Head), s ∈ hd.sealedSegments metadata pss →
      ∃ crc rest, s.bytes = header metadata crc ++ rest := by
    intro pss
    induction pss with
    | nil => exact fun _ h => by cases h
    | cons ps pss ih =>
      intro hd h
      rcases List.mem_cons.mp h with rfl | h
      · exact ⟨_, _, rfl⟩
      · exact ih _ h
  rcases List.mem_append.mp hs with hs | hs
  · exact hsealed _ _ hs
  · rw [List.mem_singleton.mp hs]
    exact ⟨_, _, rfl⟩

theorem sync_layout (h : l.Valid) (segmentSize : Nat) :
    (l.handle metadata segmentSize).sync (l.dir metadata) =
      (l.nextSeq - 1, l.sync.handle metadata segmentSize, l.sync.dir metadata) := by
  have hle := h.synced_le
  have hnext : l.nextSeq = (l.tailHead metadata).first + l.tail.length := nextSeq_eq metadata l
  unfold Wal.sync
  by_cases hdirty : l.synced < l.tail.length
  · have hflag : (l.handle metadata segmentSize).dirty = true := decide_eq_true hdirty
    rw [if_pos hflag, hnext]
    unfold dir
    rw [List.modifyLast_concat, segment_sync]
    simp only [handle, sync, Nat.lt_irrefl, decide_false]
    rfl
  · have heq : l.synced = l.tail.length := by omega
    have hl : l.sync = l := by rw [sync, ← heq]
    rw [if_neg (by simpa [handle] using hdirty), hl, hnext]
    simp only [handle, heq]

omit [Crc32c] in
theorem sync_valid (h : l.Valid) : l.sync.Valid :=
  { h with synced_le := Nat.le_refl _ }

/-- Releasing drops oldest segments, and only entries up to `upto` with them. -/
theorem release_layout (h : l.Valid) (upto budget : Nat) :
    ∃ k ≤ l.sealed.length,
      Wal.releaseOlder (l.dir metadata) upto budget = .ok ((l.drop metadata k).dir metadata) ∧
      (k = 0 ∨ (l.head.after metadata (l.sealed.take k)).first ≤ upto + 1) := by
  suffices hloop : ∀ (pss : List (List Bytes)) (hd : Head) (budget : Nat), ∃ k ≤ pss.length,
      releaseLoop upto budget (hd.sealedSegments metadata pss ++
          [(hd.after metadata pss).segment metadata l.tail l.synced]) =
        (hd.after metadata (pss.take k)).sealedSegments metadata (pss.drop k) ++
          [(hd.after metadata pss).segment metadata l.tail l.synced] ∧
      (k = 0 ∨ (hd.after metadata (pss.take k)).first ≤ upto + 1) by
    obtain ⟨k, hk, heq, hfirst⟩ := hloop l.sealed l.head budget
    refine ⟨k, hk, ?_, hfirst⟩
    unfold Wal.releaseOlder
    rw [(contiguous h).listSegments (dir_ne_nil l)]
    dsimp only
    rw [dir, tailHead, heq, dir, drop, tailHead, ← Head.after_append, List.take_append_drop]
  intro pss
  induction pss with
  | nil =>
    intro hd budget
    refine ⟨0, Nat.le_refl _, ?_, .inl rfl⟩
    cases budget <;> rfl
  | cons ps pss ih =>
    intro hd budget
    cases budget with
    | zero => exact ⟨0, Nat.zero_le _, rfl, .inl rfl⟩
    | succ budget =>
      -- the segment behind the first one starts right behind it, sealed or not
      obtain ⟨next, rest, hrest, hname⟩ : ∃ next rest,
          (hd.next metadata ps).sealedSegments metadata pss ++
            [((hd.next metadata ps).after metadata pss).segment metadata l.tail l.synced] =
          next :: rest ∧ next.first = hd.first + ps.length := by
        cases pss with
        | nil => exact ⟨_, _, rfl, rfl⟩
        | cons qs pss => exact ⟨_, _, rfl, rfl⟩
      rw [Head.sealedSegments, Head.after, List.cons_append, hrest, releaseLoop, hname]
      split
      · refine ⟨0, Nat.zero_le _, ?_, .inl rfl⟩
        rw [← hrest]
        rfl
      · next hle =>
        obtain ⟨k, hk, heq, hfirst⟩ := ih (hd.next metadata ps) budget
        refine ⟨k + 1, Nat.succ_le_succ hk, ?_, .inr ?_⟩
        · rw [← hrest]
          exact heq
        · rcases hfirst with rfl | hfirst
          · show hd.first + ps.length ≤ upto + 1
            omega
          · exact hfirst

theorem drop_valid (h : l.Valid) {k : Nat} (hk : k ≤ l.sealed.length) :
    (l.drop metadata k).Valid := by
  have hsplit : l.sealed.flatten = (l.sealed.take k).flatten ++ (l.sealed.drop k).flatten := by
    rw [← List.flatten_append, List.take_append_drop]
  have hpos := h.first_pos
  have hnext := h.nextSeq_lt
  have hseq := h.seq_lt
  exact
    { fits := fun p hp => h.fits p (by
        simp only [payloads, drop, hsplit, List.mem_append] at hp ⊢
        tauto)
      sealed_ne := fun ps hps => h.sealed_ne ps (List.mem_of_mem_drop hps)
      synced_le := h.synced_le
      first_pos := by
        rw [drop, Head.first_after]
        omega
      nextSeq_lt := by
        simp only [nextSeq, payloads, drop, hsplit, Head.first_after, List.length_append] at hnext ⊢
        omega
      seq_lt := by
        simp only [drop, Head.seq_after, List.length_take, List.length_drop]
        omega }

/-! ## Replaying a layout -/

theorem accepts_head {hd : Head} {ps : List Bytes} {i : Nat} {c : UInt32} {entries : List Entry}
    (hmeta : MetadataFits metadata) (hc : i = 0 ∨ c = hd.crc)
    (hseq : hd.first + ps.length ≤ 2 ^ 64) (hfit : ∀ p ∈ ps, p.length ≤ maxPayload)
    (hends : EndsBefore entries hd.first) :
    Accepts metadata i ⟨c, entries, 0, true⟩ (hd.bytes metadata ps)
      ⟨hd.endCrc metadata ps, entries ++ numbered hd.first ps, (hd.bytes metadata ps).length,
        false⟩ := by
  have h : Accepts metadata i ⟨c, entries, 0, true⟩ (header metadata hd.crc) _ :=
    accepts_header hmeta hc
  have hall := h.append (accepts_entryFrames hseq hfit hends rfl)
  simpa only [Head.bytes, Head.endCrc, Head.bodyCrc, List.length_append] using hall

omit [Crc32c] in
theorem endsBefore_numbered {entries : List Entry} {seq : Nat} (h : EndsBefore entries seq)
    (ps : List Bytes) : EndsBefore (entries ++ numbered seq ps) (seq + ps.length) := by
  cases ps using List.reverseRecOn with
  | nil => simpa [numbered] using h
  | append_singleton ps p =>
    rw [numbered_concat, ← List.append_assoc, List.length_append, ← Nat.add_assoc]
    exact endsBefore_snoc _ _

theorem scanSealed_layout {hd : Head} {pss : List (List Bytes)} {i : Nat} {c : UInt32}
    {entries : List Entry} (hmeta : MetadataFits metadata) (hc : i = 0 ∨ c = hd.crc)
    (hseq : hd.first + pss.flatten.length ≤ 2 ^ 64)
    (hfit : ∀ p ∈ pss.flatten, p.length ≤ maxPayload) (hends : EndsBefore entries hd.first) :
    ∃ c', scanSealed metadata i c entries (hd.sealedSegments metadata pss) =
        .ok (c', entries ++ numbered hd.first pss.flatten) ∧
      (i + pss.length = 0 ∨ c' = (hd.after metadata pss).crc) := by
  induction pss generalizing hd i c entries with
  | nil =>
    refine ⟨c, ?_, ?_⟩
    · simp [Head.sealedSegments, scanSealed, numbered]
    · exact hc
  | cons ps pss ih =>
    rw [List.flatten_cons] at hseq hfit
    rw [List.length_append] at hseq
    have hacc : Accepts metadata i ⟨c, entries, 0, true⟩ (hd.bytes metadata ps) _ :=
      accepts_head hmeta hc (by omega) (fun p hp => hfit p (List.mem_append_left _ hp)) hends
    have hscan := scanSegment_accepts false hacc
    have hseq' : (hd.next metadata ps).first + pss.flatten.length ≤ 2 ^ 64 := by
      simp only [Head.next]
      omega
    obtain ⟨c', hrest, hc'⟩ := @ih (hd.next metadata ps) (i + 1) _ _ (.inr rfl) hseq'
      (fun p hp => hfit p (List.mem_append_right _ hp)) (endsBefore_numbered hends ps)
    refine ⟨c', ?_, ?_⟩
    · rw [Head.sealedSegments, scanSealed]
      simp only [Head.segment, hscan]
      refine hrest.trans ?_
      rw [List.flatten_cons, numbered_append, List.append_assoc]
      rfl
    · rcases hc' with hc' | hc'
      · omega
      · exact .inr hc'

end Layout

end Layout

end P2P333.Substrate
