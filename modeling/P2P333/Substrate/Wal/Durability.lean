import P2P333.Substrate.Wal.Crash

/-!
# What survives

A machine that keeps one log: it appends, syncs, releases old segments, closes, dies at any moment,
and opens the log again. `Machine` has the directory and the handle of the code, and what its user
can have seen: the records that were appended, the last receipt, the largest release.

Results:
1. `inv_step`: every step keeps the directory in the shape of a layout.
2. `loses_only_unsynced_suffix`: without releases, opening returns everything that the last receipt
   covers and a prefix of what was appended after it.
3. `release_keeps_live_iff`: with releases, opening returns a run without gaps that holds every
   durable entry above the largest release.
4. `numbers_increase`: numbers are not used again, as long as no log is opened that has run out of
   entries; `numbers_reused` has a run in which one is.
-/

namespace P2P333.Substrate

open Lib

/-! ## Definitions -/

/-- What the user of the log can have seen. `log` are the entries that the last `open` returned and
those appended since; `unsynced` those of them that are not on stable storage, with the offset and
the checksum at which each was written; `durable` all entries that ever were on stable storage, in
the order of their appends. -/
structure History where
  log : List Entry
  unsynced : List (Nat × UInt32 × Entry)
  durable : List Entry
  receipt : Nat
  released : Nat
deriving DecidableEq

structure Machine where
  dir : Dir
  wal : Option Wal
  history : History
deriving DecidableEq

/-- What the machine was doing when it died. In `cut` the old tail is on stable storage and the new
segment does not have its name yet; `release upto k` had made `k` deletions. -/
inductive Doing where
  | nothing
  | append (payload : Bytes)
  | cut (payload : Bytes)
  | release (upto k : Nat)
deriving DecidableEq

/-- What happens to a log. A crash can come in the middle of a write. -/
inductive WalOp where
  | append (payload : Bytes)
  | sync
  | close
  | release (upto : Nat)
  | crash (doing : Doing) (damage : Damage)
  | reopen (segmentSize : Nat)
deriving DecidableEq

/-- Every byte is on stable storage. -/
def stable (dir : Dir) : Bool := dir.all fun s => s.synced == s.bytes.length

section Machine

variable [Crc32c] (metadata : Bytes)

namespace History

/-- What was written is durable once every byte is on stable storage. -/
def settle (h : History) (dir : Dir) : History :=
  if stable dir then
    { h with durable := h.durable ++ h.unsynced.map fun r => r.2.2, unsynced := [] }
  else h

/-- A record is written by the handle `w`. -/
def wrote (h : History) (w : Wal) (seq : Nat) (payload : Bytes) : History :=
  { h with
    log := h.log ++ [⟨seq, payload⟩]
    unsynced := h.unsynced ++ [(w.tailOffset, w.crc, ⟨seq, payload⟩)] }

/-- The log was opened: what it returned is there, and the rest of what was written is not. -/
def opened (h : History) (entries : List Entry) : History :=
  { h with
    log := entries
    durable := h.durable ++ (h.unsynced.map fun r => r.2.2).filter (· ∈ entries)
    unsynced := [] }

end History

namespace Machine

def start (segmentSize : Nat) : Machine :=
  ⟨(Wal.create metadata segmentSize).2, some (Wal.create metadata segmentSize).1,
    ⟨[], [], [], 0, 0⟩⟩

def release (s : Machine) (upto budget : Nat) : Option Machine :=
  match Wal.releaseOlder s.dir upto budget with
  | .error _ => none
  | .ok dir =>
    some ⟨dir, s.wal, { s.history with released := max s.history.released upto }⟩

/-- The machine as it is when it dies. -/
def interrupt (s : Machine) (w : Wal) : Doing → Option Machine
  | .nothing => some s
  | .append payload =>
    if payload.length > maxPayload ∨ w.nextSeq + 1 ≥ 2 ^ 64 then none
    else some ⟨(w.writeEntry s.dir payload).2, s.wal, s.history.wrote w w.nextSeq payload⟩
  | .cut payload =>
    if payload.length > maxPayload ∨ w.nextSeq + 1 ≥ 2 ^ 64 ∨
        (w.writeEntry s.dir payload).1.tailOffset < w.segmentSize then none
    else
      let dir := (w.writeEntry s.dir payload).2.modifyLast Segment.sync
      some ⟨dir, s.wal, (s.history.wrote w w.nextSeq payload).settle dir⟩
  | .release upto k => s.release upto k

/-- `close` is a sync that gives the handle up. -/
def synced (s : Machine) (w : Wal) : Machine :=
  let r := w.sync s.dir
  ⟨r.2.2, some r.2.1, { s.history.settle r.2.2 with receipt := r.1 }⟩

def step (s : Machine) (op : WalOp) : Option Machine :=
  match s.wal, op with
  | some w, .append payload =>
    match w.append s.dir payload with
    | .error (.recordTooLarge _ _) => some s
    | .error _ => none
    | .ok (seq, w', dir) => some ⟨dir, some w', (s.history.wrote w seq payload).settle dir⟩
  | some w, .sync => some (s.synced w)
  | some w, .close => some { s.synced w with wal := none }
  | some _, .release upto => s.release upto s.dir.length
  | some w, .crash doing damage =>
    (s.interrupt w doing).map fun s => ⟨s.dir.map (Segment.crash damage), none, s.history⟩
  | none, .reopen segmentSize =>
    match Wal.openDir s.dir metadata segmentSize with
    | .error _ => none
    | .ok (entries, w, dir) => some ⟨dir, some w, s.history.opened entries⟩
  | _, _ => none

/-- The records that a crash can damage. -/
def exposed (s : Machine) (doing : Doing) : List (Nat × UInt32 × Entry) :=
  ((s.wal.bind fun w => s.interrupt w doing).map fun s => s.history.unsynced).getD []

/-- The checksum tells each record that the crash damages from the one that was written. -/
def CrcDistinguishes (s : Machine) : WalOp → Prop
  | .crash doing damage => AllDistinguished damage.zeroed (s.exposed doing)
  | _ => True

instance (s : Machine) : (op : WalOp) → Decidable (s.CrcDistinguishes op)
  | .crash doing damage =>
    inferInstanceAs (Decidable (AllDistinguished damage.zeroed (s.exposed doing)))
  | .append _ | .sync | .close | .release _ | .reopen _ => .isTrue trivial

end Machine

/-- A release, completed or not, and how far it goes. -/
def WalOp.releases : WalOp → Option Nat
  | .release upto => some upto
  | .crash (.release upto _) _ => some upto
  | _ => none

/-- An open finds the numbers that were used: there are several files, or the name of the only one
says that its numbers start at one, or the scan of it finds an entry. -/
def NumbersFound : Dir → Prop
  | [file] => file.first ≤ 1 ∨
    (scanSegment file.bytes 0 true metadata 0 []).toOption.any (fun r => !r.2.2.isEmpty) = true
  | _ => True

/-- The condition on a step: the log is opened while its numbers can be found. -/
def Machine.KeepsNumbers (s : Machine) : WalOp → Prop
  | .reopen _ => NumbersFound metadata s.dir
  | _ => True

instance : (dir : Dir) → Decidable (NumbersFound metadata dir)
  | [_] => inferInstanceAs (Decidable (_ ∨ _))
  | [] | _ :: _ :: _ => .isTrue trivial

instance (s : Machine) : (op : WalOp) → Decidable (s.KeepsNumbers metadata op)
  | .reopen _ => inferInstanceAs (Decidable (NumbersFound metadata s.dir))
  | .append _ | .sync | .close | .release _ | .crash _ _ => .isTrue trivial

/-! ## Layouts and what is on stable storage -/

variable {metadata} {l : Layout}

theorem writtenAt_append (o : Nat) (crc : UInt32) (seq : Nat) (ps qs : List Bytes) :
    writtenAt o crc seq (ps ++ qs) = writtenAt o crc seq ps ++
      writtenAt (o + (entryFrames crc seq ps).length) (entriesCrc crc seq ps) (seq + ps.length)
        qs := by
  induction ps generalizing o crc seq with
  | nil => rfl
  | cons p ps ih =>
    simp only [List.cons_append, writtenAt, ih, entryFrames, entriesCrc, List.length_append,
      List.length_cons]
    rw [Nat.add_assoc o, Nat.add_assoc seq 1, Nat.add_comm 1]

theorem map_writtenAt (o : Nat) (crc : UInt32) (seq : Nat) (ps : List Bytes) :
    ((writtenAt o crc seq ps).map fun r => r.2.2) = numbered seq ps := by
  induction ps generalizing o crc seq with
  | nil => rfl
  | cons p ps ih => simp only [writtenAt, List.map_cons, numbered, ih]

namespace Layout

theorem map_pending (l : Layout) : ((l.pending metadata).map fun r => r.2.2) = l.unsynced := by
  rw [pending, map_writtenAt, unsynced, tailHead, Head.first_after]

omit [Crc32c] in
theorem entries_eq (h : l.Valid) : l.entries = l.durable ++ l.unsynced := by
  have hlen : (l.tail.take l.synced).length = l.synced := List.length_take_of_le h.synced_le
  rw [entries, durable, unsynced, payloads, Nat.add_assoc, ← hlen, ← List.length_append,
    hlen, ← numbered_append, List.append_assoc, List.take_append_drop]

omit [Crc32c] in
/-- With everything on stable storage. -/
theorem unsynced_eq_nil (h : l.synced = l.tail.length) : l.unsynced = [] := by
  rw [unsynced, h, List.drop_length]
  rfl

theorem pending_eq_nil (h : l.synced = l.tail.length) : l.pending metadata = [] := by
  rw [pending, h, List.drop_length]
  rfl

omit [Crc32c] in
theorem durable_eq_entries (h : l.Valid) (hs : l.synced = l.tail.length) :
    l.durable = l.entries := by
  rw [entries_eq h, unsynced_eq_nil hs, List.append_nil]

/-- A record takes space, so a tail is stable only if all of its records are. -/
theorem stable_dir (h : l.Valid) : stable (l.dir metadata) = true ↔ l.synced = l.tail.length := by
  have hsealed : ∀ (pss : List (List Bytes)) (hd : Head),
      stable (hd.sealedSegments metadata pss) = true := by
    intro pss
    induction pss with
    | nil => exact fun _ => rfl
    | cons ps pss ih =>
      intro hd
      have hrest := ih (hd.next metadata ps)
      unfold stable at hrest ⊢
      rw [Head.sealedSegments, List.all_cons, hrest]
      simp [Head.segment]
  have hle := h.synced_le
  have hall := hsealed l.sealed l.head
  unfold stable at hall ⊢
  rw [dir, List.all_append, hall, Bool.true_and, List.all_cons, List.all_nil, Bool.and_true,
    beq_iff_eq]
  simp only [Head.segment]
  constructor
  · intro heq
    by_contra hne
    obtain ⟨p, ps, hdrop⟩ : ∃ p ps, l.tail.drop l.synced = p :: ps := by
      cases hd : l.tail.drop l.synced with
      | nil =>
        have := congrArg List.length hd
        rw [List.length_drop, List.length_nil] at this
        omega
      | cons p ps => exact ⟨p, ps, rfl⟩
    rw [Head.bytes_split _ hle, hdrop, List.length_append, entryFrames,
      List.length_append, entryFrame,
      length_encodeRecord] at heq
    omega
  · intro heq
    rw [heq, List.take_length]

/-- A log all of which is on stable storage does not notice a crash. -/
theorem crash_of_synced (h : l.synced = l.tail.length) (d : Damage) :
    (l.dir metadata).map (Segment.crash d) = l.dir metadata := by
  rw [dir, List.map_append, Head.crash_sealedSegments, h, List.map_singleton, Segment.crash_synced]

/-- A log all of which is on stable storage opens with all of its entries. -/
theorem open_synced (h : l.Valid) (hmeta : MetadataFits metadata)
    (hs : l.synced = l.tail.length) (segmentSize : Nat) :
    ∃ w d, Wal.openDir (l.dir metadata) metadata segmentSize = .ok (l.entries, w, d) := by
  have hpending : AllDistinguished [] (l.pending metadata) := by
    rw [pending_eq_nil hs]
    exact fun r hr => by cases hr
  obtain ⟨j, hkj, hj, -, hopen⟩ := open_crashed h hmeta ⟨0, []⟩ hpending segmentSize
  have htail : (l.truncate j).entries = l.entries := by
    have : l.tail.take j = l.tail := List.take_of_length_le (hs ▸ hkj)
    simp only [entries, payloads, truncate, this]
  rw [crash_of_synced hs, htail] at hopen
  exact ⟨_, _, hopen⟩

theorem pending_write (h : l.Valid) (segmentSize : Nat) (payload : Bytes) :
    (l.write payload).pending metadata = l.pending metadata ++
      [((l.handle metadata segmentSize).tailOffset, (l.handle metadata segmentSize).crc,
        ⟨l.nextSeq, payload⟩)] := by
  have hle := h.synced_le
  have hlen : (l.tail.take l.synced).length = l.synced := List.length_take_of_le hle
  have htake : (l.tail ++ [payload]).take l.synced = l.tail.take l.synced :=
    List.take_append_of_le_length hle
  have hdrop : (l.tail ++ [payload]).drop l.synced = l.tail.drop l.synced ++ [payload] :=
    List.drop_append_of_le_length hle
  have hhead : (l.write payload).tailHead metadata = l.tailHead metadata := rfl
  unfold pending
  rw [hhead]
  simp only [write, htake, hdrop, writtenAt_append, writtenAt]
  have hoff : (l.handle metadata segmentSize).tailOffset = _ :=
    congrArg List.length ((l.tailHead metadata).bytes_split hle)
  have hcrc : (l.handle metadata segmentSize).crc = _ := (l.tailHead metadata).endCrc_split hle
  have hseq : l.nextSeq = (l.tailHead metadata).first + l.synced +
    (l.tail.drop l.synced).length := by
    rw [nextSeq_eq metadata, List.length_drop]
    omega
  rw [hoff, hcrc, hseq, List.length_append]

end Layout

/-! ## Numbers -/

variable {seq j segmentSize : Nat} {e : Entry}

section

omit [Crc32c]

theorem mem_numbered {ps : List Bytes} (h : e ∈ numbered seq ps) :
    seq ≤ e.seq ∧ e.seq < seq + ps.length := by
  induction ps generalizing seq with
  | nil => cases h
  | cons p ps ih =>
    rw [List.length_cons]
    rcases List.mem_cons.mp h with rfl | h
    · exact ⟨Nat.le_refl _, by dsimp only; omega⟩
    · have := ih h
      omega

theorem take_numbered (seq n : Nat) (ps : List Bytes) :
    (numbered seq ps).take n = numbered seq (ps.take n) := by
  induction ps generalizing seq n with
  | nil => simp [numbered]
  | cons p ps ih =>
    cases n with
    | zero => rfl
    | succ n => simp only [numbered, List.take_succ_cons, ih]

theorem pairwise_numbered (seq : Nat) (ps : List Bytes) :
    (numbered seq ps).Pairwise fun a b => a.seq < b.seq := by
  induction ps generalizing seq with
  | nil => exact List.Pairwise.nil
  | cons p ps ih =>
    refine List.Pairwise.cons (fun e he => ?_) (ih _)
    have := (mem_numbered he).1
    exact Nat.lt_of_succ_le this

/-- Of records with increasing numbers, those found in a prefix are the prefix. -/
theorem filter_mem_of_pairwise {ds us vs : List Entry}
    (h : (ds ++ (us ++ vs)).Pairwise fun a b => a.seq < b.seq) :
    (us ++ vs).filter (· ∈ ds ++ us) = us := by
  rw [← List.append_assoc] at h
  have hcross := (List.pairwise_append.mp h).2.2
  rw [List.filter_append, List.filter_eq_self.mpr (fun e he => by simp [he]),
    List.filter_eq_nil_iff.mpr, List.append_nil]
  intro e he hmem
  exact absurd (hcross e (of_decide_eq_true hmem) e he) (Nat.lt_irrefl _)

/-- The numbers of the entries that are not on stable storage follow those of the others. -/
theorem Layout.le_unsynced (hv : l.Valid) (he : e ∈ l.unsynced) :
    l.head.first + l.durable.length ≤ e.seq ∧
      e.seq < l.head.first + (l.durable.length + l.unsynced.length) := by
  have hlen : (l.tail.take l.synced).length = l.synced := List.length_take_of_le hv.synced_le
  have hmem := mem_numbered he
  rw [unsynced, durable, length_numbered, length_numbered, List.length_append, hlen]
  omega

end

/-! ## The invariant -/

/-- What the history says about the layout. `whole`: nothing was ever released; `careful`: the log
was opened only while its numbers could be found. -/
structure Inv (metadata : Bytes) (whole careful : Prop) (h : History) (l : Layout) : Prop where
  valid : l.Valid
  unsynced : h.unsynced = l.pending metadata
  durable : l.durable <:+ h.durable
  live : ∀ e ∈ h.durable, h.released < e.seq → e ∈ l.durable
  log : whole → h.log = l.entries ∧ l.head.first = 1
  covered : whole ∨ careful → h.receipt < l.head.first + l.durable.length
  increasing : careful → h.durable.Pairwise fun a b => a.seq < b.seq
  named : careful → l.head.name = l.head.first ∨ l.head.first = 1
  below : careful → ∀ e ∈ h.durable, e.seq < l.head.first + l.durable.length

variable {whole careful : Prop} {h : History}

theorem inv_start : Inv metadata whole careful ⟨[], [], [], 0, 0⟩ ⟨⟨0, 0, 0, 1⟩, [], [], 0⟩ where
  valid :=
    { fits := fun p hp => by cases hp
      sealed_ne := fun ps hps => by cases hps
      synced_le := Nat.le_refl _
      first_pos := Nat.one_pos
      nextSeq_lt := Nat.one_lt_two_pow (by decide)
      seq_lt := Nat.two_pow_pos 64 }
  unsynced := rfl
  durable := List.suffix_refl _
  live e he := by cases he
  log _ := ⟨rfl, rfl⟩
  covered _ := Nat.one_pos
  increasing _ := List.Pairwise.nil
  named _ := .inr rfl
  below _ e he := by cases he

variable {payload : Bytes}

theorem Inv.write (hi : Inv metadata whole careful h l)
    (hfit : payload.length ≤ maxPayload) (hseq : l.nextSeq + 1 < 2 ^ 64) (segmentSize : Nat) :
    Inv metadata whole careful (h.wrote (l.handle metadata segmentSize) l.nextSeq payload)
      (l.write payload) := by
  have hdurable : (l.write payload).durable = l.durable := by
    unfold Layout.durable Layout.write
    rw [List.take_append_of_le_length hi.valid.synced_le]
  have hentries : (l.write payload).entries = l.entries ++ [⟨l.nextSeq, payload⟩] := by
    unfold Layout.entries
    rw [show (l.write payload).payloads = l.payloads ++ [payload] from
      (List.append_assoc ..).symm]
    exact numbered_concat ..
  exact
    { valid := Layout.write_valid hi.valid hfit hseq
      unsynced := by
        rw [Layout.pending_write hi.valid segmentSize, ← hi.unsynced]
        rfl
      durable := hdurable ▸ hi.durable
      live := hdurable ▸ hi.live
      log := fun hw => by
        obtain ⟨hlog, hfirst⟩ := hi.log hw
        refine ⟨?_, hfirst⟩
        rw [hentries, ← hlog]
        rfl
      covered := hdurable ▸ hi.covered
      increasing := hi.increasing
      named := hi.named
      below := hdurable ▸ hi.below }

/-- Everything that was written is on stable storage, in whichever segments. -/
theorem Inv.settled (hi : Inv metadata whole careful h l) {l' : Layout} (hv : l'.Valid)
    (hsynced : l'.synced = l'.tail.length) (hentries : l'.entries = l.entries)
    (hhead : l'.head = l.head) :
    Inv metadata whole careful
      { h with durable := h.durable ++ h.unsynced.map fun r => r.2.2, unsynced := [] } l' := by
  have hu : (h.unsynced.map fun r => r.2.2) = l.unsynced := by
    rw [hi.unsynced, Layout.map_pending]
  have hd : l'.durable = l.durable ++ l.unsynced := by
    rw [Layout.durable_eq_entries hv hsynced, hentries, Layout.entries_eq hi.valid]
  exact
    { valid := hv
      unsynced := (Layout.pending_eq_nil hsynced).symm
      durable := by
        obtain ⟨t, ht⟩ := hi.durable
        refine ⟨t, ?_⟩
        rw [hd, hu, ← List.append_assoc, ht]
      live := fun e he hlt => by
        rw [hd]
        rw [hu] at he
        rcases List.mem_append.mp he with he | he
        · exact List.mem_append_left _ (hi.live e he hlt)
        · exact List.mem_append_right _ he
      log := fun hw => by rw [hentries, hhead]; exact hi.log hw
      covered := fun hw => by
        have := hi.covered hw
        rw [hd, hhead, List.length_append]
        show h.receipt < _
        omega
      increasing := fun hc => by
        rw [hu]
        refine List.pairwise_append.mpr
          ⟨hi.increasing hc, pairwise_numbered .., fun a ha b hb => ?_⟩
        exact Nat.lt_of_lt_of_le (hi.below hc a ha) (Layout.le_unsynced hi.valid hb).1
      named := fun hc => by
        rw [hhead]
        exact hi.named hc
      below := fun hc e he => by
        rw [hd, hhead, List.length_append]
        rw [hu] at he
        rcases List.mem_append.mp he with he | he
        · have := hi.below hc e he
          omega
        · have := (Layout.le_unsynced hi.valid he).2
          omega }

/-- A receipt for everything. -/
theorem Inv.receipted (hi : Inv metadata whole careful h l) (hsynced : l.synced = l.tail.length) :
    Inv metadata whole careful { h with receipt := l.nextSeq - 1 } l where
  valid := hi.valid
  unsynced := hi.unsynced
  durable := hi.durable
  live := hi.live
  log := hi.log
  covered _ := by
    have hpos := hi.valid.first_pos
    rw [Layout.durable_eq_entries hi.valid hsynced, Layout.entries, length_numbered]
    show l.nextSeq - 1 < l.nextSeq
    unfold Layout.nextSeq
    omega
  increasing := hi.increasing
  named := hi.named
  below := hi.below

theorem Head.name_after (hd : Head) {pss : List (List Bytes)} (hne : pss ≠ []) :
    (hd.after metadata pss).name = (hd.after metadata pss).first := by
  cases pss using List.reverseRecOn with
  | nil => exact absurd rfl hne
  | append_singleton pss ps =>
    rw [Head.after_concat]
    rfl

theorem Layout.durable_drop (l : Layout) (k : Nat) :
    l.durable = numbered l.head.first (l.sealed.take k).flatten ++
      (l.drop metadata k).durable := by
  rw [Layout.durable, Layout.durable, Layout.drop, Head.first_after, ← numbered_append,
    ← List.append_assoc, ← List.flatten_append, List.take_append_drop]

theorem Layout.tailHead_drop (l : Layout) (k : Nat) :
    (l.drop metadata k).tailHead metadata = l.tailHead metadata := by
  rw [tailHead, drop, ← Head.after_append, List.take_append_drop]
  rfl

theorem Inv.release (hi : Inv metadata whole careful h l) (hw : ¬ whole) {k upto : Nat}
    (hk : k ≤ l.sealed.length)
    (hfirst : k = 0 ∨ (l.head.after metadata (l.sealed.take k)).first ≤ upto + 1) :
    Inv metadata whole careful { h with released := max h.released upto } (l.drop metadata k) := by
  have hsplit : l.durable = _ ++ (l.drop metadata k).durable := Layout.durable_drop l k
  have hhead : (l.drop metadata k).head.first =
      l.head.first + (l.sealed.take k).flatten.length := Head.first_after ..
  have hlength : (l.drop metadata k).head.first + (l.drop metadata k).durable.length =
      l.head.first + l.durable.length := by
    rw [hhead, hsplit, List.length_append, length_numbered, Nat.add_assoc]
  exact
    { valid := Layout.drop_valid hi.valid hk
      unsynced := by
        rw [hi.unsynced, Layout.pending, Layout.pending, Layout.tailHead_drop]
        rfl
      durable := by
        refine List.IsSuffix.trans ⟨_, hsplit.symm⟩ hi.durable
      live := fun e he hlt => by
        have hmem := hi.live e he (Nat.lt_of_le_of_lt (Nat.le_max_left ..) hlt)
        rw [hsplit] at hmem
        rcases List.mem_append.mp hmem with hmem | hmem
        · have hle := (mem_numbered hmem).2
          have hupto : upto < e.seq := Nat.lt_of_le_of_lt (Nat.le_max_right ..) hlt
          rcases hfirst with rfl | hfirst
          · cases hmem
          · rw [Head.first_after] at hfirst
            omega
        · exact hmem
      log := fun h => absurd h hw
      covered := hlength.symm ▸ hi.covered
      increasing := hi.increasing
      named := fun hc => by
        -- a segment behind another one is named when that one is cut
        rcases Nat.eq_zero_or_pos k with rfl | hpos
        · exact hi.named hc
        · refine .inl (Head.name_after _ fun hnil => ?_)
          have := congrArg List.length hnil
          rw [List.length_take_of_le hk, List.length_nil] at this
          omega
      below := hlength.symm ▸ hi.below }

section

omit [Crc32c]

theorem Layout.durable_renumber (l : Layout) : l.renumber.durable = l.durable := by
  unfold renumber
  split
  · next hempty =>
    obtain ⟨hsealed, htail⟩ := List.append_eq_nil_iff.mp hempty
    simp only [durable, hsealed, htail, List.take_nil, List.append_nil, numbered]
  · rfl

theorem Layout.entries_renumber (l : Layout) : l.renumber.entries = l.entries := by
  unfold renumber
  split
  · next hempty =>
    have : payloads { l with head := { l.head with first := 1 } } = [] := hempty
    rw [entries, entries, this, hempty]
    rfl
  · rfl

/-- A tail that is cut back keeps the durable entries and a first part of the others. -/
theorem Layout.entries_truncate (hv : l.Valid) (hkj : l.synced ≤ j) :
    ∃ us vs, l.unsynced = us ++ vs ∧ (l.truncate j).entries = l.durable ++ us := by
  have hlen : (l.tail.take l.synced).length = l.synced := List.length_take_of_le hv.synced_le
  have htake : l.tail.take j =
      l.tail.take l.synced ++ (l.tail.drop l.synced).take (j - l.synced) := by
    rw [← List.take_add, Nat.add_sub_cancel' hkj]
  have hsplit : l.tail.drop l.synced = (l.tail.drop l.synced).take (j - l.synced) ++
      (l.tail.drop l.synced).drop (j - l.synced) := (List.take_append_drop ..).symm
  refine ⟨_, _, (congrArg _ hsplit).trans (numbered_append ..), ?_⟩
  rw [entries, payloads, durable]
  show numbered l.head.first (l.sealed.flatten ++ l.tail.take j) = _
  rw [htake, ← List.append_assoc, numbered_append, List.length_append, hlen, Nat.add_assoc]

/-- The entries that follow those on stable storage are numbered from there on. -/
theorem Layout.lt_of_mem_truncated (hv : l.Valid) {us vs : List Entry}
    (hus : l.unsynced = us ++ vs) (he : e ∈ us) :
    e.seq < l.head.first + (l.durable.length + us.length) := by
  have htake : us = numbered (l.head.first + l.sealed.flatten.length + l.synced)
      ((l.tail.drop l.synced).take us.length) := by
    have : us = l.unsynced.take us.length := by rw [hus, List.take_left]
    rw [unsynced, take_numbered] at this
    exact this
  have hlen : (l.tail.take l.synced).length = l.synced := List.length_take_of_le hv.synced_le
  have hle : ((l.tail.drop l.synced).take us.length).length ≤ us.length := List.length_take_le ..
  rw [htake] at he
  have hmem := mem_numbered he
  rw [durable, length_numbered, List.length_append, hlen]
  omega

end

/-- The log was opened, with the first `j` entries of its tail. -/
theorem Inv.opened (hi : Inv metadata whole careful h l) (hkj : l.synced ≤ j)
    (hj : j ≤ l.tail.length)
    (hnumbers : careful → (l.truncate j).payloads = [] → l.head.first = 1) :
    Inv metadata whole careful (h.opened (l.truncate j).entries) (l.truncate j).renumber := by
  have hv := Layout.truncate_valid hi.valid hj
  have hsynced : (l.truncate j).synced = (l.truncate j).tail.length := by simp [Layout.truncate, hj]
  have hu : (h.unsynced.map fun r => r.2.2) = l.unsynced := by
    rw [hi.unsynced, Layout.map_pending]
  obtain ⟨us, vs, husvs, hentries⟩ := Layout.entries_truncate hi.valid hkj
  -- What is durable now: the old durable entries, and those before the cut.
  have hall : (l.durable ++ (us ++ vs)).Pairwise fun a b => a.seq < b.seq := by
    rw [← husvs, ← Layout.entries_eq hi.valid]
    exact pairwise_numbered ..
  have hopened : h.opened (l.truncate j).entries =
      { h with log := (l.truncate j).entries, durable := h.durable ++ us, unsynced := [] } := by
    unfold History.opened
    rw [hu, husvs, hentries, filter_mem_of_pairwise hall]
  have hd : (l.truncate j).renumber.durable = l.durable ++ us := by
    rw [Layout.durable_renumber, Layout.durable_eq_entries hv hsynced, hentries]
  have hone : l.head.first = 1 → (l.truncate j).renumber.head.first = 1 := by
    intro h1
    unfold Layout.renumber
    split
    · rfl
    · exact h1
  have hfirst : whole ∨ careful → (l.truncate j).renumber.head.first = l.head.first := by
    intro hwc
    unfold Layout.renumber
    split
    · next hempty =>
      rcases hwc with hw | hc
      · exact (hi.log hw).2.symm
      · exact (hnumbers hc hempty).symm
    · rfl
  have hname : (l.truncate j).renumber.head.name = l.head.name := by
    unfold Layout.renumber
    split <;> rfl
  have hus : ∀ e ∈ us, e ∈ l.unsynced := by
    intro e he
    rw [husvs]
    exact List.mem_append_left _ he
  rw [hopened]
  exact
    { valid := Layout.renumber_valid hv
      unsynced := by
        have : (l.truncate j).renumber.synced = (l.truncate j).renumber.tail.length := by
          unfold Layout.renumber
          split
          · exact hsynced
          · exact hsynced
        exact (Layout.pending_eq_nil this).symm
      durable := by
        obtain ⟨t, ht⟩ := hi.durable
        refine ⟨t, ?_⟩
        rw [hd, ← List.append_assoc, ht]
      live := fun e he hlt => by
        rw [hd]
        rcases List.mem_append.mp he with he | he
        · exact List.mem_append_left _ (hi.live e he hlt)
        · exact List.mem_append_right _ he
      log := fun hw => ⟨(Layout.entries_renumber _).symm, hone (hi.log hw).2⟩
      covered := fun hwc => by
        have := hi.covered hwc
        rw [hd, hfirst hwc, List.length_append]
        show h.receipt < _
        omega
      increasing := fun hc => by
        have hrest := (List.pairwise_append.mp (List.pairwise_append.mp hall).2.1).1
        refine List.pairwise_append.mpr ⟨hi.increasing hc, hrest, fun a ha b hb => ?_⟩
        exact Nat.lt_of_lt_of_le (hi.below hc a ha) (Layout.le_unsynced hi.valid (hus b hb)).1
      named := fun hc => by
        rw [hname, hfirst (.inr hc)]
        exact hi.named hc
      below := fun hc e he => by
        rw [hd, hfirst (.inr hc), List.length_append]
        rcases List.mem_append.mp he with he | he
        · have := hi.below hc e he
          omega
        · exact Layout.lt_of_mem_truncated hi.valid husvs he }

/-! ## Steps -/

/-- A handle that stands on the layout, or the files that a crash left of it. -/
inductive At (metadata : Bytes) (l : Layout) : Machine → Prop
  | up {segmentSize : Nat} {h : History} :
      At metadata l ⟨l.dir metadata, some (l.handle metadata segmentSize), h⟩
  | down {d : Damage} {h : History} (hcrc : AllDistinguished d.zeroed (l.pending metadata)) :
      At metadata l ⟨(l.dir metadata).map (Segment.crash d), none, h⟩

def Holds (metadata : Bytes) (whole careful : Prop) (s : Machine) : Prop :=
  ∃ l, Inv metadata whole careful s.history l ∧ At metadata l s

/-- What is asked of a step. -/
def Allowed (metadata : Bytes) (whole careful : Prop) (s : Machine) (op : WalOp) : Prop :=
  s.CrcDistinguishes op ∧ (∀ upto ∈ op.releases, ¬ whole) ∧
    (careful → s.KeepsNumbers metadata op)

theorem settle_of_not_synced (hv : l.Valid) (hlt : l.synced < l.tail.length) (h : History) :
    h.settle (l.dir metadata) = h := by
  unfold History.settle
  rw [if_neg]
  rw [Layout.stable_dir hv]
  omega

theorem settle_of_synced (hv : l.Valid) (hs : l.synced = l.tail.length) (h : History) :
    h.settle (l.dir metadata) =
      { h with durable := h.durable ++ h.unsynced.map fun r => r.2.2, unsynced := [] } := by
  unfold History.settle
  rw [if_pos ((Layout.stable_dir hv).mpr hs)]

omit [Crc32c] in
/-- The new tail of a cut starts empty, with nothing to sync. -/
theorem Layout.entries_cut (l : Layout) : l.cut.entries = l.entries := by
  simp [entries, payloads, cut]

theorem Inv.append (hi : Inv metadata whole careful h l)
    (hfit : payload.length ≤ maxPayload) (hseq : l.nextSeq + 1 < 2 ^ 64)
    (hv : (l.append metadata segmentSize payload).Valid) :
    Inv metadata whole careful
      ((h.wrote (l.handle metadata segmentSize) l.nextSeq payload).settle
        ((l.append metadata segmentSize payload).dir metadata))
      (l.append metadata segmentSize payload) := by
  have hw := hi.write hfit hseq segmentSize
  have hlt : (l.write payload).synced < (l.write payload).tail.length := by
    have := hi.valid.synced_le
    simp only [Layout.write, List.length_append, List.length_singleton]
    omega
  unfold Layout.append at hv ⊢
  split at hv
  · next hsize =>
    rw [if_pos hsize, settle_of_synced hv rfl]
    exact hw.settled hv rfl (Layout.entries_cut _) rfl
  · next hsize =>
    rw [if_neg hsize, settle_of_not_synced hv hlt]
    exact hw

/-- A sync settles the history, whether or not there was something to do. -/
theorem Inv.synced (hi : Inv metadata whole careful h l) :
    Inv metadata whole careful { h.settle (l.sync.dir metadata) with receipt := l.nextSeq - 1 }
      l.sync := by
  rw [settle_of_synced (Layout.sync_valid hi.valid) rfl]
  exact (hi.settled (Layout.sync_valid hi.valid) rfl rfl rfl).receipted rfl

/-- An open of one file that finds no entry has scanned it to no entry. -/
theorem any_scan_of_open {file : Segment} {size : Nat} {w : Wal} {dir : Dir}
    (h : Wal.openDir [file] metadata size = .ok ([], w, dir)) :
    (scanSegment file.bytes 0 true metadata 0 []).toOption.any (fun r => !r.2.2.isEmpty) =
      false := by
  unfold Wal.openDir at h
  cases hlist : listSegments [file] with
  | error e =>
    rw [hlist] at h
    cases h
  | ok segs =>
    have hsegs : segs = [file] := by
      unfold listSegments at hlist
      rw [show [file].insertionSort (fun s t => s.seq ≤ t.seq) = [file] from rfl] at hlist
      dsimp only at hlist
      split at hlist
      · cases hlist
      · exact (Except.ok.inj hlist).symm
    rw [hlist, hsegs] at h
    simp only [scanAll] at h
    cases hscan : scanSegment file.bytes 0 true metadata 0 [] with
    | error e => rfl
    | ok r =>
      obtain ⟨scan, crc, entries⟩ := r
      rw [hscan] at h
      dsimp only at h
      split at h
      · cases h
      · obtain ⟨rfl, -⟩ := Prod.mk.inj (Except.ok.inj h)
        rfl

/-- An open that finds no entry starts the numbers at one. Where the numbers could be found, they
started there before: there is one file, and no release has moved its first number. -/
theorem Inv.first_of_numbersFound (hi : Inv metadata whole careful h l) (hc : careful) {d : Damage}
    (hfound : NumbersFound metadata ((l.dir metadata).map (Segment.crash d))) {size : Nat}
    {w : Wal} {dir : Dir}
    (hopen : Wal.openDir ((l.dir metadata).map (Segment.crash d)) metadata size =
      .ok ((l.truncate j).entries, w, dir)) (hempty : (l.truncate j).payloads = []) :
    l.head.first = 1 := by
  have hsealed : l.sealed = [] := by
    refine List.eq_nil_iff_forall_not_mem.mpr fun ps hps => hi.valid.sealed_ne ps hps ?_
    exact List.flatten_eq_nil_iff.mp (List.append_eq_nil_iff.mp hempty).1 ps hps
  have hdir : (l.dir metadata).map (Segment.crash d) =
      [(l.head.segment metadata l.tail l.synced).crash d] := by
    rw [Layout.dir, Layout.tailHead, hsealed]
    rfl
  have hentries : (l.truncate j).entries = [] := by rw [Layout.entries, hempty]; rfl
  rw [hdir] at hfound hopen
  rw [hentries] at hopen
  rcases hfound with hname | hscan
  · rcases hi.named hc with hnamed | hone
    · have hle : l.head.first ≤ 1 := hnamed ▸ hname
      exact Nat.le_antisymm hle hi.valid.first_pos
    · exact hone
  · rw [any_scan_of_open hopen] at hscan
    cases hscan

variable {s s' : Machine}

theorem Holds.release (hi : Inv metadata whole careful s.history l)
    (hdir : s.dir = l.dir metadata) {upto budget : Nat} (hw : ¬ whole)
    (hrel : s.release upto budget = some s') :
    ∃ k, Inv metadata whole careful s'.history (l.drop metadata k) ∧
      s'.dir = (l.drop metadata k).dir metadata ∧ s'.wal = s.wal ∧
      ∀ segmentSize, (l.drop metadata k).handle metadata segmentSize =
        l.handle metadata segmentSize := by
  unfold Machine.release at hrel
  rw [hdir] at hrel
  obtain ⟨k, hk, heq, hfirst⟩ := Layout.release_layout hi.valid upto budget
  rw [heq] at hrel
  cases hrel
  refine ⟨k, hi.release hw hk hfirst, rfl, rfl, fun segmentSize => ?_⟩
  unfold Layout.handle
  rw [Layout.tailHead_drop]
  rfl

theorem append_seq {w w' : Wal} {dir dir' : Dir}
    (h : w.append dir payload = .ok (seq, w', dir')) : seq = w.nextSeq := by
  unfold Wal.append at h
  split at h
  · cases h
  split at h
  · cases h
  dsimp only at h
  split at h
  · split at h
    · cases h
    · cases h
      rfl
  · cases h
    rfl

theorem append_bounds {w w' : Wal} {dir dir' : Dir}
    (h : w.append dir payload = .ok (seq, w', dir')) :
    payload.length ≤ maxPayload ∧ w.nextSeq + 1 < 2 ^ 64 := by
  unfold Wal.append at h
  split at h
  · cases h
  next hfit =>
  split at h
  · cases h
  next hseq => exact ⟨Nat.not_lt.mp hfit, Nat.not_le.mp hseq⟩

/-- Dying in the middle of something leaves the files of a layout. -/
theorem Inv.interrupt (hi : Inv metadata whole careful h l) {doing : Doing} {d : Damage}
    (hrel : ∀ upto ∈ WalOp.releases (.crash doing d), ¬ whole)
    (hstep : Machine.interrupt ⟨l.dir metadata, some (l.handle metadata segmentSize), h⟩
      (l.handle metadata segmentSize) doing = some s') :
    ∃ l', Inv metadata whole careful s'.history l' ∧ s'.dir = l'.dir metadata := by
  have hnext : (l.handle metadata segmentSize).nextSeq = l.nextSeq :=
    (Layout.nextSeq_eq metadata l).symm
  cases doing with
  | nothing =>
    cases hstep
    exact ⟨l, hi, rfl⟩
  | append payload =>
    simp only [Machine.interrupt, Layout.write_layout hi.valid, hnext] at hstep
    split at hstep
    · cases hstep
    next hok =>
    cases hstep
    exact ⟨l.write payload, hi.write (by omega) (by omega) segmentSize, rfl⟩
  | cut payload =>
    simp only [Machine.interrupt, Layout.write_layout hi.valid, hnext] at hstep
    split at hstep
    · cases hstep
    next hok =>
    cases hstep
    have hfit : payload.length ≤ maxPayload := by omega
    have hw := hi.write hfit (by omega) segmentSize
    have hsync : ((l.write payload).dir metadata).modifyLast Segment.sync =
        (l.write payload).sync.dir metadata := by
      rw [Layout.dir, List.modifyLast_concat, Layout.segment_sync]
      rfl
    refine ⟨(l.write payload).sync, ?_, hsync⟩
    dsimp only
    rw [hsync, settle_of_synced (Layout.sync_valid hw.valid) rfl]
    exact hw.settled (Layout.sync_valid hw.valid) rfl rfl rfl
  | release upto k =>
    obtain ⟨k', hi', hdir, -, -⟩ := Holds.release hi rfl (hrel upto rfl) hstep
    exact ⟨_, hi', hdir⟩

theorem holds_step (hmeta : MetadataFits metadata) {op : WalOp}
    (hs : Holds metadata whole careful s) (hok : Allowed metadata whole careful s op)
    (hstep : s.step metadata op = some s') : Holds metadata whole careful s' := by
  obtain ⟨l, hi, hat⟩ := hs
  obtain ⟨hcrc, hrel, hnumbers⟩ := hok
  cases hat with
  | @up segmentSize h =>
    cases op with
    | append payload =>
      simp only [Machine.step] at hstep
      split at hstep
      · cases hstep
        exact ⟨l, hi, .up⟩
      · cases hstep
      · next happ =>
        cases hstep
        obtain ⟨hfit, hseq⟩ := append_bounds happ
        rw [show (l.handle metadata segmentSize).nextSeq = l.nextSeq from
          (Layout.nextSeq_eq metadata l).symm] at hseq
        obtain ⟨rfl, rfl, rfl, hv⟩ := Layout.append_layout hi.valid happ
        exact ⟨_, hi.append hfit hseq hv, .up⟩
    | sync =>
      simp only [Machine.step, Machine.synced, Layout.sync_layout hi.valid] at hstep
      cases hstep
      exact ⟨l.sync, hi.synced, .up⟩
    | close =>
      simp only [Machine.step, Machine.synced, Layout.sync_layout hi.valid] at hstep
      cases hstep
      refine ⟨l.sync, hi.synced, ?_⟩
      have hcrash : (l.sync.dir metadata).map (Segment.crash ⟨0, []⟩) = l.sync.dir metadata :=
        Layout.crash_of_synced rfl _
      rw [← hcrash]
      refine .down (d := ⟨0, []⟩) ?_
      rw [Layout.pending_eq_nil rfl]
      exact fun r hr => by cases hr
    | release upto =>
      simp only [Machine.step] at hstep
      obtain ⟨k, hi', hdir, hwal, hhandle⟩ := Holds.release hi rfl (hrel upto rfl) hstep
      refine ⟨_, hi', ?_⟩
      obtain ⟨dir, wal, history⟩ := s'
      cases hdir
      cases hwal
      rw [← hhandle]
      exact .up
    | crash doing d =>
      simp only [Machine.step] at hstep
      obtain ⟨s1, hint, rfl⟩ := Option.map_eq_some_iff.mp hstep
      -- The running call stops half done, and the crash takes from the tail what was not synced.
      obtain ⟨l', hi', hdir⟩ := hi.interrupt hrel hint
      have hexp : Machine.exposed ⟨l.dir metadata, some (l.handle metadata segmentSize), h⟩ doing =
          s1.history.unsynced := by
        simp only [Machine.exposed, Option.bind_some, hint, Option.map_some, Option.getD_some]
      refine ⟨l', hi', ?_⟩
      rw [hdir]
      refine .down ?_
      rw [← hi'.unsynced, ← hexp]
      exact hcrc
    | reopen segmentSize => cases hstep
  | @down d h hdist =>
    cases op with
    | reopen segmentSize =>
      simp only [Machine.step] at hstep
      obtain ⟨j, hkj, hj, -, hopen⟩ := Layout.open_crashed hi.valid hmeta d hdist segmentSize
      have hfirst : careful → (l.truncate j).payloads = [] → l.head.first = 1 :=
        fun hc => hi.first_of_numbersFound hc (hnumbers hc) hopen
      rw [hopen] at hstep
      cases hstep
      exact ⟨_, hi.opened hkj hj hfirst, .up⟩
    | append payload => cases hstep
    | sync => cases hstep
    | close => cases hstep
    | release upto => cases hstep
    | crash doing damage => cases hstep

/-! ## Runs -/

theorem dir_create (metadata : Bytes) (segmentSize : Nat) :
    (Wal.create metadata segmentSize).2 = Layout.dir metadata ⟨⟨0, 0, 0, 1⟩, [], [], 0⟩ := by
  simp [Wal.create, Layout.dir, Layout.tailHead, Head.after, Head.sealedSegments, Head.segment,
    Head.bytes, entryFrames]

theorem wal_create (metadata : Bytes) (segmentSize : Nat) :
    (Wal.create metadata segmentSize).1 =
      Layout.handle metadata ⟨⟨0, 0, 0, 1⟩, [], [], 0⟩ segmentSize := by
  simp [Wal.create, Layout.handle, Layout.tailHead, Head.after, Head.bytes, Head.endCrc,
    Head.bodyCrc, entryFrames, entriesCrc]

theorem holds_of_reachable (hmeta : MetadataFits metadata)
    (h : Reachable (Machine.step metadata) (Allowed metadata whole careful)
      (Machine.start metadata segmentSize) s) : Holds metadata whole careful s := by
  refine Reachable.invariant (I := Holds metadata whole careful) ?_
    (fun s op s' _ hs hok hstep => holds_step hmeta hs hok hstep) h
  refine ⟨⟨⟨0, 0, 0, 1⟩, [], [], 0⟩, inv_start, ?_⟩
  unfold Machine.start
  rw [dir_create, wal_create]
  exact .up

/-- In a state without a handle the log can be opened. -/
theorem Holds.opens (hmeta : MetadataFits metadata)
    (hs : Holds metadata whole careful s) (hdown : s.wal = none) (segmentSize : Nat) :
    ∃ l j, Inv metadata whole careful s.history l ∧ l.synced ≤ j ∧ j ≤ l.tail.length ∧
      Wal.openDir s.dir metadata segmentSize =
        .ok ((l.truncate j).entries, (l.truncate j).renumber.handle metadata segmentSize,
          (l.truncate j).renumber.dir metadata) := by
  obtain ⟨l, hi, hat⟩ := hs
  cases hat with
  | up => cases hdown
  | @down d h hdist =>
    obtain ⟨j, hkj, hj, -, hopen⟩ := Layout.open_crashed hi.valid hmeta d hdist segmentSize
    exact ⟨l, j, hi, hkj, hj, hopen⟩

/-- How many entries are left when a machine has died with this damage: those on stable storage, and
the survivors of the rest. -/
def Machine.kept (s : Machine) (d : Damage) : Nat :=
  s.history.log.length - s.history.unsynced.length +
    survivors d.zeroed d.keep s.history.unsynced

/-- After a crash, without releases, exactly these entries come back. -/
theorem Holds.recovers (hmeta : MetadataFits metadata) {s s' : Machine} {doing : Doing} {d : Damage}
    (hs : Holds metadata True careful s)
    (hok : Allowed metadata True careful s (.crash doing d))
    (hstep : s.step metadata (.crash doing d) = some s') (segmentSize : Nat) :
    s'.kept d ≤ s'.history.log.length ∧ ∃ w dir, Wal.openDir s'.dir metadata segmentSize =
      .ok (s'.history.log.take (s'.kept d), w, dir) := by
  obtain ⟨l, hi, hat⟩ := hs
  cases hat with
  | down => cases hstep
  | @up size h =>
    simp only [Machine.step] at hstep
    obtain ⟨s1, hint, rfl⟩ := Option.map_eq_some_iff.mp hstep
    obtain ⟨l', hi', hdir⟩ := hi.interrupt hok.2.1 hint
    have hexp : Machine.exposed ⟨l.dir metadata, some (l.handle metadata size), h⟩ doing =
        s1.history.unsynced := by
      simp only [Machine.exposed, Option.bind_some, hint, Option.map_some, Option.getD_some]
    have hdist : AllDistinguished d.zeroed (l'.pending metadata) := by
      rw [← hi'.unsynced, ← hexp]
      exact hok.1
    obtain ⟨j, hkj, hj, hcount, hopen⟩ :=
      Layout.open_crashed hi'.valid hmeta d hdist segmentSize
    have hkept : Machine.kept ⟨s1.dir.map (Segment.crash d), none, s1.history⟩ d =
        l'.sealed.flatten.length + j := by
      have hmap : ((l'.pending metadata).map fun r => r.2.2) = l'.unsynced := l'.map_pending
      have hlen := congrArg List.length hmap
      rw [List.length_map, Layout.unsynced, length_numbered, List.length_drop] at hlen
      have hle := hi'.valid.synced_le
      simp only [Machine.kept, (hi'.log trivial).1, hi'.unsynced, Layout.entries, length_numbered,
        Layout.payloads, List.length_append, hlen, hcount]
      omega
    have hentries : s1.history.log.take (l'.sealed.flatten.length + j) =
        (l'.truncate j).entries := by
      rw [(hi'.log trivial).1, Layout.entries, take_numbered, Layout.payloads,
        List.take_length_add_append]
      rfl
    rw [← hdir, ← hentries, ← hkept] at hopen
    refine ⟨?_, _, _, hopen⟩
    rw [hkept, (hi'.log trivial).1, Layout.entries, length_numbered, Layout.payloads,
      List.length_append]
    omega

omit [Crc32c] in
theorem getElem?_numbered {i : Nat} {ps : List Bytes}
    (h : (numbered seq ps)[i]? = some e) : e.seq = seq + i := by
  induction ps generalizing seq i with
  | nil => cases h
  | cons p ps ih =>
    cases i with
    | zero =>
      cases h
      rfl
    | succ i =>
      have := ih h
      omega

/-- Opening succeeds, with everything that the last receipt covers and a prefix of what was appended
after it, numbered from one on; the handle continues behind it. -/
theorem loses_only_unsynced_suffix {segmentSize : Nat} {s : Machine}
    (hfit : envelopeHeader + metadata.length ≤ maxEnvelopeLen)
    (h : Reachable (Machine.step metadata)
      (fun s op => s.CrcDistinguishes op ∧ op.releases = none)
      (Machine.start metadata segmentSize) s)
    (hdown : s.wal = none) (segmentSize' : Nat) :
    ∃ entries w dir, Wal.openDir s.dir metadata segmentSize' = .ok (entries, w, dir) ∧
      s.history.receipt ≤ entries.length ∧ entries <+: s.history.log ∧
      (∀ i e, s.history.log[i]? = some e → e.seq = i + 1) ∧
      w.nextSeq = entries.length + 1 ∧ w.lastSynced = entries.length := by
  have hallowed : Reachable (Machine.step metadata) (Allowed metadata True False)
      (Machine.start metadata segmentSize) s :=
    h.mono fun s op hok =>
      ⟨hok.1, fun upto hup => (by rw [hok.2] at hup; cases hup), False.elim⟩
  obtain ⟨l, j, hi, hkj, hj, hopen⟩ :=
    (holds_of_reachable hfit hallowed).opens hfit hdown segmentSize'
  obtain ⟨hlog, hfirst⟩ := hi.log trivial
  obtain ⟨us, vs, hus, hentries⟩ := Layout.entries_truncate hi.valid hkj
  have hcovered := hi.covered (.inl trivial)
  have hnext : nextSeqAfter (l.truncate j).entries = (l.truncate j).entries.length + 1 := by
    have hhead : (l.truncate j).head.first = 1 := hfirst
    rw [Layout.entries, hhead, nextSeqAfter_numbered_one, length_numbered, Nat.add_comm]
  refine ⟨_, _, _, hopen, ?_, ?_, ?_, ?_, ?_⟩
  · rw [hentries, List.length_append]
    omega
  · rw [hlog, Layout.entries_eq hi.valid, hus, hentries, ← List.append_assoc]
    exact List.prefix_append _ _
  · intro i e he
    rw [hlog, Layout.entries, hfirst] at he
    rw [getElem?_numbered he, Nat.add_comm]
  all_goals
    rw [Layout.handle_renumber (Layout.truncate_valid hi.valid hj) (by simp [Layout.truncate, hj]),
      hnext]
  rfl

/-- Opening succeeds, with a run of entries without gaps that holds every durable entry above the
largest release, and nothing that was not written. -/
def OpensLive (metadata : Bytes) (s : Machine) : Prop :=
  ∀ segmentSize, ∃ entries w dir, Wal.openDir s.dir metadata segmentSize = .ok (entries, w, dir) ∧
    (∃ first, ∀ (i : Nat) (e : Entry), entries[i]? = some e → e.seq = first + i) ∧
    (∀ e ∈ entries, e ∈ s.history.durable ∨ e ∈ s.history.unsynced.map fun r => r.2.2) ∧
    ∀ e ∈ s.history.durable, s.history.released < e.seq → e ∈ entries

theorem opensLive_of_fits (hfit : MetadataFits metadata)
    (h : Reachable (Machine.step metadata) Machine.CrcDistinguishes
      (Machine.start metadata segmentSize) s) (hdown : s.wal = none) : OpensLive metadata s := by
  have hallowed : Reachable (Machine.step metadata) (Allowed metadata False False)
      (Machine.start metadata segmentSize) s :=
    h.mono fun s op hok => ⟨hok, fun _ _ => id, False.elim⟩
  intro segmentSize'
  obtain ⟨l, j, hi, hkj, hj, hopen⟩ :=
    (holds_of_reachable hfit hallowed).opens hfit hdown segmentSize'
  obtain ⟨us, vs, hus, hentries⟩ := Layout.entries_truncate hi.valid hkj
  refine ⟨_, _, _, hopen, ⟨_, fun i e he => getElem?_numbered he⟩, ?_, ?_⟩
  · intro e he
    rw [hentries] at he
    rcases List.mem_append.mp he with he | he
    · exact .inl (hi.durable.subset he)
    · right
      rw [hi.unsynced, Layout.map_pending, hus]
      exact List.mem_append_left _ he
  · intro e he hlt
    rw [hentries]
    exact List.mem_append_left _ (hi.live e he hlt)

/-- With too long a metadata, the first record is lost although it was synced. -/
theorem exists_not_opensLive (hfit : ¬ MetadataFits metadata) :
    ∃ segmentSize s, Reachable (Machine.step metadata) Machine.CrcDistinguishes
      (Machine.start metadata segmentSize) s ∧ s.wal = none ∧ ¬ OpensLive metadata s := by
  obtain ⟨size, happ⟩ := exists_append_first metadata
  let w := (Wal.create metadata size).1
  let r := w.writeEntry (Wal.create metadata size).2 []
  let s : Machine := ⟨r.2, some r.1, (History.wrote ⟨[], [], [], 0, 0⟩ w 1 []).settle r.2⟩
  have happend : (Machine.start metadata size).step metadata (.append []) = some s := by
    unfold Machine.step Machine.start
    dsimp only
    rw [happ]
  have hclose : s.step metadata .close = some { s.synced r.1 with wal := none } := rfl
  have hreach : Reachable (Machine.step metadata) Machine.CrcDistinguishes
      (Machine.start metadata size) s := .tail (a := .append []) .refl trivial happend
  refine ⟨size, _, .tail (a := .close) hreach trivial hclose, rfl, fun hlive => ?_⟩
  obtain ⟨entries, w', dir', hopen, -, -, hkept⟩ := hlive size
  obtain rfl := openDir_oversize hfit rfl hopen
  have hstable : stable (r.1.sync r.2).2.2 = true := by
    show stable [Segment.sync _] = true
    simp [stable, Segment.sync]
  have hmem : (⟨1, []⟩ : Entry) ∈ (s.synced r.1).history.durable := by
    simp only [Machine.synced, s, History.settle, hstable, if_true]
    split
    · simp [History.wrote]
    · simp [History.wrote]
  have hreleased : (s.synced r.1).history.released = 0 := by
    simp only [Machine.synced, s, History.settle, hstable, if_true]
    split
    · rfl
    · rfl
  cases hkept _ hmem
    (by show (s.synced r.1).history.released < 1; rw [hreleased]; exact Nat.one_pos)

/-- Releasing keeps everything live if and only if the metadata fits into a record. -/
theorem release_keeps_live_iff (metadata : Bytes) :
    (∀ segmentSize s, Reachable (Machine.step metadata) Machine.CrcDistinguishes
      (Machine.start metadata segmentSize) s → s.wal = none → OpensLive metadata s) ↔
      envelopeHeader + metadata.length ≤ maxEnvelopeLen := by
  constructor
  · intro h
    by_contra hfit
    obtain ⟨size, s, hs, hdown, hnot⟩ := exists_not_opensLive hfit
    exact hnot (h size s hs hdown)
  · intro hfit size s hs hdown
    exact opensLive_of_fits hfit hs hdown

/-- Numbers of durable records increase, and an open does not fall behind a receipt, in every run in
which each open can find the numbers that were used. -/
theorem numbers_increase {segmentSize : Nat} {s : Machine}
    (hfit : envelopeHeader + metadata.length ≤ maxEnvelopeLen)
    (h : Reachable (Machine.step metadata)
      (fun s op => s.CrcDistinguishes op ∧ s.KeepsNumbers metadata op)
      (Machine.start metadata segmentSize) s) :
    (s.history.durable.Pairwise fun a b => a.seq < b.seq) ∧
      ∀ w, s.wal = some w → s.history.receipt ≤ w.lastSynced := by
  have hallowed : Reachable (Machine.step metadata) (Allowed metadata False True)
      (Machine.start metadata segmentSize) s :=
    h.mono fun s op hok => ⟨hok.1, fun _ _ => id, fun _ => hok.2⟩
  obtain ⟨l, hi, hat⟩ := holds_of_reachable hfit hallowed
  refine ⟨hi.increasing trivial, fun w hw => ?_⟩
  cases hat with
  | down => cases hw
  | up =>
    cases hw
    have hcovered := hi.covered (.inr trivial)
    have hlen : (l.tail.take l.synced).length = l.synced :=
      List.length_take_of_le hi.valid.synced_le
    rw [Layout.durable, length_numbered, List.length_append, hlen] at hcovered
    simp only [Layout.handle, Layout.tailHead, Head.first_after]
    dsimp only at hcovered ⊢
    omega

end Machine

/-! ## Concrete runs -/

/-- Two records are written after a sync; the sector that they lie in is lost. -/
theorem loses_only_unsynced_suffix_demo :
    ∃ s : Machine, s.wal = none ∧ s.history.receipt = 1 ∧ s.history.log.length = 3 ∧
      ∃ entries w dir, @Wal.openDir castagnoli s.dir [1] 0 = .ok (entries, w, dir) ∧
        s.history.receipt ≤ entries.length ∧ entries <+: s.history.log ∧
        (∀ i e, s.history.log[i]? = some e → e.seq = i + 1) ∧
        w.nextSeq = entries.length + 1 ∧ w.lastSynced = entries.length := by
  obtain ⟨s, hs, hdown, hreceipt, hlog⟩ := @Reachable.of_exec _ _ (@Machine.step castagnoli [1])
    (fun s op => @Machine.CrcDistinguishes castagnoli s op ∧ op.releases = none)
    (@Machine.start castagnoli [1] 1000) _
    (fun s => s.wal = none ∧ s.history.receipt = 1 ∧ s.history.log.length = 3) _
    [.append [7], .sync, .append [8], .append [9], .crash .nothing ⟨60, [0]⟩] (by decide +kernel)
  exact ⟨s, hdown, hreceipt, hlog,
    @loses_only_unsynced_suffix castagnoli [1] 1000 s (by decide) hs hdown 0⟩

/-- Every segment is filled by one record. A release deletes all of them, the empty tail is written
and synced before the log is opened again, and a crash after that leaves it empty once more. -/
theorem numbers_increase_demo :
    ∃ s : Machine, s.history.released = 2 ∧ s.history.durable.map Entry.seq = [1, 2, 3, 4] ∧
      (s.history.durable.Pairwise fun a b => a.seq < b.seq) ∧
      ∀ w, s.wal = some w → s.history.receipt ≤ w.lastSynced := by
  obtain ⟨s, hs, hreleased, hdurable⟩ := @Reachable.of_exec _ _ (@Machine.step castagnoli [])
    (fun s op => @Machine.CrcDistinguishes castagnoli s op ∧
      @Machine.KeepsNumbers castagnoli [] s op)
    (@Machine.start castagnoli [] 80) _
    (fun s => s.history.released = 2 ∧ s.history.durable.map Entry.seq = [1, 2, 3, 4]) _
    [.append [7], .append [8], .sync, .release 2, .append [9], .sync, .crash .nothing ⟨0, []⟩,
      .reopen 80, .append [10], .close] (by decide +kernel)
  exact ⟨s, hreleased, hdurable, @numbers_increase castagnoli [] 80 s (by decide) hs⟩

/-- Every segment is filled by one record. The first one is released while the tail is empty, and
the log is opened again: the next record has the number of the first. -/
theorem numbers_reused :
    ∃ s, Reachable (@Machine.step castagnoli []) (@Machine.CrcDistinguishes castagnoli)
        (@Machine.start castagnoli [] 1) s ∧
      s.history.durable = [⟨1, [7]⟩, ⟨1, [8]⟩] ∧ s.history.receipt = 1 :=
  @Reachable.of_exec _ _ (@Machine.step castagnoli []) (@Machine.CrcDistinguishes castagnoli)
    (@Machine.start castagnoli [] 1) _
    (fun s => s.history.durable = [⟨1, [7]⟩, ⟨1, [8]⟩] ∧ s.history.receipt = 1) _
    [.append [7], .sync, .release 1, .close, .reopen 1, .append [8]] (by decide +kernel)

/-- Metadata of 16 MiB less seven bytes. -/
theorem oversize_metadata_not_live :
    ¬ ∀ segmentSize s, Reachable (@Machine.step castagnoli (List.replicate (2 ^ 24 - 7) 0))
      (@Machine.CrcDistinguishes castagnoli)
      (@Machine.start castagnoli (List.replicate (2 ^ 24 - 7) 0) segmentSize) s →
      s.wal = none → @OpensLive castagnoli (List.replicate (2 ^ 24 - 7) 0) s := by
  intro h
  have hfit : ¬ MetadataFits (List.replicate (2 ^ 24 - 7) 0) := by
    unfold MetadataFits
    rw [List.length_replicate]
    decide
  obtain ⟨size, s, hs, hdown, hnot⟩ := @exists_not_opensLive castagnoli _ hfit
  exact hnot (h size s hs hdown)

end P2P333.Substrate
