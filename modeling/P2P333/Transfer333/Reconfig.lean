import P2P333.Transfer333.Codec.Wire
import P2P333.Transfer333.Recovery

/-!
# The operator's epoch change

`333-transfer/src/bin/node.rs`, `run_reconfig`: the checks on the proposal, and the loop that
collects epoch votes in polling rounds and assembles the certificate. What the network answers and
the order in which the hash map of a round is visited are parameters.

The loop keeps the first valid vote of a member and drops the later ones. A member may vote again
over a frontier that has moved, so the votes of a quorum can be received and not be kept.

Results:
1. `Change.loop_eq_ok`, `Change.exists_of_certAt`: the loop ends with the certificate of a round it
   polled, and ends with one as soon as some round has one.
2. `Change.exists_certAt_iff`: the votes kept through a round make a certificate exactly when the
   first valid votes of a quorum of members agree.
3. `Change.installs_of_certAt`: an authority with the same trust root installs the certificate.
4. `Change.faithful_iff`: collection is complete exactly when some quorum agrees with its first
   votes whenever a quorum agrees at all.
-/

namespace P2P333.Transfer333.Reconfig

open Std Lib

def retryWindow : Nat := 25

/-- The answers of the network and of the hash map, in the order in which the loop asks. -/
structure Env where
  /-- What the poll of a round returns. -/
  polled : Nat → List AuthorityMsg
  /-- The answer to the broadcast in front of a window, or the text of its error. -/
  sent : Nat → Except String Unit
  /-- The order in which the digests of a round are visited. -/
  visit : Nat → List Digest → List Digest
  visit_perm : ∀ i l, (visit i l).Perm l

namespace Env

/-- The messages of the first `i` rounds. -/
def before (env : Env) (i : Nat) : List AuthorityMsg := (List.range i).flatMap env.polled

/-- The messages received by the end of round `i`. -/
def heard (env : Env) (i : Nat) : List AuthorityMsg := env.before (i + 1)

/-- The budget reaches round `i`: every broadcast up to its window succeeds. -/
structure Reaches (env : Env) (maxRounds i : Nat) : Prop where
  budget : i < max maxRounds 1
  sent : ∀ k ≤ i / retryWindow, env.sent k = .ok ()

theorem before_succ (env : Env) (i : Nat) : env.before (i + 1) = env.before i ++ env.polled i := by
  simp [before, List.range_succ]

end Env

section Collection

variable [Crypto]

/-- A change that passed the checks in front of the loop. -/
structure Change where
  committee : Committee
  proposal : EpochProposal
  next : Committee
  epoch : proposal.epoch = committee.epoch + 1
  formed : Committee.withEpoch proposal.nextRoster committee.policy proposal.epoch = some next

namespace Change

/-- The checks in front of the loop. -/
def propose (committee : Committee) (nextRoster : List (AuthorityId × VerifyingKey))
    (epoch : U64) : Except String Change :=
  if hepoch : epoch = committee.epoch + 1 then
    match hnext : Committee.withEpoch nextRoster committee.policy epoch with
    | none => .error "invalid --next-committee roster"
    | some next => .ok
      { committee
        proposal := ⟨committee.policy.networkId, committee.policy.id, epoch, nextRoster⟩
        next
        epoch := hepoch
        formed := hnext }
  else .error s!"--epoch {epoch.toNat} is not current+1 ({committee.epoch.toNat + 1})"

/-! ## The loop -/

/-- The tests on a vote: not a foreign change, trust root or roster, and signed by a member. -/
def admits (ch : Change) (v : EpochVote) : Bool :=
  if v.epoch ≠ ch.proposal.epoch ∨ v.committeeId ≠ ch.committee.id ∨
      v.nextCommitteeId ≠ ch.next.id then
    false
  else match ch.committee.keyOf v.authority with
    | none => false
    | some key => decide (v.verifySignature key = .ok ())

/-- One message of a poll, with the votes kept so far. -/
def receive (ch : Change) (votes : List EpochVote) : AuthorityMsg → List EpochVote
  | .epochVote v =>
    if ch.admits v && !votes.any (·.authority = v.authority) then votes ++ [v] else votes
  | _ => votes

def byDigest (visit : List Digest → List Digest) (votes : List EpochVote) :
    List (Digest × List EpochVote) :=
  (visit (votes.map (·.frontierDigest)).dedup).map fun d =>
    (d, votes.filter (·.frontierDigest = d))

/-- The certificate over the first group found that holds quorum. No quorum is empty, so the group
has a first vote. -/
def assemble (ch : Change) (visit : List Digest → List Digest) (votes : List EpochVote) :
    Option EpochCert :=
  match (byDigest visit votes).find? fun e => ch.committee.quorum ≤ e.2.length with
  | none => none
  | some (_, group) => group.head?.map fun first =>
    { epoch := ch.proposal.epoch
      nextRoster := ch.proposal.nextRoster
      frontier := first.frontier
      votes := group.take ch.committee.quorum }

/-- The rounds of one window, from round `i` on: a certificate, or the votes kept. -/
def window (ch : Change) (env : Env) : Nat → Nat → List EpochVote →
    Option EpochCert × List EpochVote
  | 0, _, votes => (none, votes)
  | rounds + 1, i, votes =>
    match ch.assemble (env.visit i) ((env.polled i).foldl ch.receive votes) with
    | some cert => (some cert, (env.polled i).foldl ch.receive votes)
    | none => window ch env rounds (i + 1) ((env.polled i).foldl ch.receive votes)

/-- The collection loop at window `k`, which starts with round `i`. -/
def loop (ch : Change) (env : Env) (remaining k i : Nat) (votes : List EpochVote) :
    Except String (Option EpochCert) :=
  match env.sent k with
  | .error e => .error ("broadcast_epoch_proposal: " ++ e)
  | .ok () =>
    match ch.window env (min remaining retryWindow) i votes with
    | (some cert, _) => .ok (some cert)
    | (none, votes) =>
      if remaining - min remaining retryWindow = 0 then .ok none
      else loop ch env (remaining - min remaining retryWindow) (k + 1)
        (i + min remaining retryWindow) votes
termination_by remaining
decreasing_by
  unfold retryWindow at *
  omega

def collect (ch : Change) (env : Env) (maxRounds : Nat) : Except String (Option EpochCert) :=
  ch.loop env (max maxRounds 1) 0 0 []

/-! ## What it is for -/

/-- A vote valid for this change. -/
structure Counts (ch : Change) (v : EpochVote) : Prop where
  epoch : v.epoch = ch.proposal.epoch
  committee : v.committeeId = ch.committee.id
  next : v.nextCommitteeId = ch.next.id
  signed : ∃ key, ch.committee.keyOf v.authority = some key ∧ v.verifySignature key = .ok ()

/-- The messages hold valid votes for `d` from a quorum of distinct members. -/
def Quorate (ch : Change) (ms : List AuthorityMsg) (d : Digest) : Prop :=
  ∃ S : Finset AuthorityId, ch.committee.quorum ≤ S.card ∧ ∀ a ∈ S, ∃ v,
    .epochVote v ∈ ms ∧ ch.Counts v ∧ v.authority = a ∧ v.frontierDigest = d

/-- The valid vote that a message holds. -/
def voteOf (ch : Change) : AuthorityMsg → Option EpochVote
  | .epochVote v => if ch.admits v then some v else none
  | _ => none

def votesIn (ch : Change) (ms : List AuthorityMsg) : List EpochVote := ms.filterMap ch.voteOf

/-- The first valid vote of a member. -/
def first (ch : Change) (ms : List AuthorityMsg) (a : AuthorityId) : Option EpochVote :=
  (ch.votesIn ms).find? (·.authority = a)

/-- The first valid votes of a quorum of distinct members are for `d`. -/
def QuorateFirst (ch : Change) (ms : List AuthorityMsg) (d : Digest) : Prop :=
  ∃ S : Finset AuthorityId, ch.committee.quorum ≤ S.card ∧ ∀ a ∈ S, ∃ v,
    ch.first ms a = some v ∧ v.frontierDigest = d

/-- An authority that can take a certificate of this change: its trust root is the old committee,
under the same policy, and it is at the previous epoch with no install pending. -/
structure Ready (ch : Change) (x : Authority) : Prop where
  unpoisoned : x.poisoned = false
  root : x.committeeId = ch.committee.id
  policy : x.policy.id = ch.committee.policy.id
  epoch : x.epoch.toNat + 1 = ch.proposal.epoch.toNat
  idle : x.epochState.isInstalling = false

/-- The loop ends with a certificate exactly when some round sees a quorum for one digest, and what
it ends with installs wherever the journal works. -/
structure Faithful (ch : Change) (env : Env) (maxRounds : Nat) : Prop where
  complete : (∃ cert, ch.collect env maxRounds = .ok (some cert)) ↔
    ∃ i, env.Reaches maxRounds i ∧ ∃ d, ch.Quorate (env.heard i) d
  installs : ∀ cert, ch.collect env maxRounds = .ok (some cert) → ∀ x, ch.Ready x →
    (x.installEpochCert cert ch.committee .stored).1 = .ok .installed ∨
    (x.installEpochCert cert ch.committee .stored).1 = .ok .installing

/-! ## Rounds -/

/-- The votes kept at the start of round `i`. -/
def kept (ch : Change) (env : Env) (i : Nat) : List EpochVote := (env.before i).foldl ch.receive []

/-- What the end of round `i` makes of the votes kept through it. -/
def certAt (ch : Change) (env : Env) (i : Nat) : Option EpochCert :=
  ch.assemble (env.visit i) (ch.kept env (i + 1))

variable {ch : Change} {env : Env}

theorem kept_succ (i : Nat) :
    ch.kept env (i + 1) = (env.polled i).foldl ch.receive (ch.kept env i) := by
  rw [kept, Env.before_succ, List.foldl_append, ← kept]

variable (ch env) in
/-- A window stops at the first round with a certificate, and keeps every vote otherwise. -/
theorem window_kept (rounds i : Nat) :
    (∃ j cert, i ≤ j ∧ j < i + rounds ∧ ch.certAt env j = some cert ∧
      (ch.window env rounds i (ch.kept env i)).1 = some cert) ∨
    ((∀ j, i ≤ j → j < i + rounds → ch.certAt env j = none) ∧
      ch.window env rounds i (ch.kept env i) = (none, ch.kept env (i + rounds))) := by
  induction rounds generalizing i with
  | zero => exact .inr ⟨fun j hle hlt => absurd hle (by omega), rfl⟩
  | succ rounds ih =>
    rw [window, ← kept_succ, ← certAt]
    cases hcert : ch.certAt env i with
    | some cert => exact .inl ⟨i, cert, Nat.le_refl i, by omega, hcert, rfl⟩
    | none =>
      show _ ∨ (_ ∧ ch.window env rounds (i + 1) (ch.kept env (i + 1)) = _)
      rcases ih (i + 1) with ⟨j, cert, hle, hlt, hj, hwindow⟩ | ⟨hnone, hwindow⟩
      · exact .inl ⟨j, cert, by omega, by omega, hj, hwindow⟩
      · refine .inr ⟨fun j hle hlt => ?_, ?_⟩
        · rcases Nat.eq_or_lt_of_le hle with rfl | hlt'
          · exact hcert
          · exact hnone j hlt' (by omega)
        · rw [hwindow]
          congr 2
          omega

variable {remaining i : Nat}

omit [Crypto] in
/-- A window that is not the last one is full. -/
theorem min_retryWindow (h : ¬ remaining - min remaining retryWindow = 0) :
    min remaining retryWindow = retryWindow := by
  omega

variable {cert : EpochCert}

/-- The loop ends with the certificate of a round it polled. -/
theorem loop_eq_ok {k : Nat} (hi : i = k * retryWindow)
    (h : ch.loop env remaining k i (ch.kept env i) = .ok (some cert)) :
    ∃ j, i ≤ j ∧ j < i + remaining ∧ (∀ w, k ≤ w → w ≤ j / retryWindow → env.sent w = .ok ()) ∧
      ch.certAt env j = some cert := by
  induction remaining using Nat.strong_induction_on generalizing k i with
  | _ remaining ih =>
    rw [loop] at h
    split at h
    · cases h
    · next hsent =>
      rcases window_kept ch env (min remaining retryWindow) i with
        ⟨j, cert', hle, hlt, hj, hwindow⟩ | ⟨-, hwindow⟩
      · split at h
        · next found votes heq =>
          rw [heq] at hwindow
          cases hwindow
          cases h
          refine ⟨j, hle, by omega, fun w hkw hwj => ?_, hj⟩
          obtain rfl : w = k := by
            have hlast : j / retryWindow < k + 1 :=
              Nat.div_lt_of_lt_mul (by unfold retryWindow at *; omega)
            omega
          exact hsent
        · next heq =>
          rw [heq] at hwindow
          cases hwindow
      · simp only [hwindow] at h
        split at h
        · cases h
        · next hmore =>
          have hfull := min_retryWindow hmore
          rw [hfull] at h hmore
          obtain ⟨j, hle, hlt, hsent', hj⟩ := ih (remaining - retryWindow)
            (by unfold retryWindow at *; omega) (by rw [hi, Nat.succ_mul]) h
          refine ⟨j, by omega, by omega, fun w hkw hwj => ?_, hj⟩
          rcases Nat.eq_or_lt_of_le hkw with rfl | hlt'
          · exact hsent
          · exact hsent' w hlt' hwj

/-- It ends with one as soon as some round has one. -/
theorem exists_of_certAt {k j : Nat} (hi : i = k * retryWindow)
    (hle : i ≤ j) (hlt : j < i + remaining)
    (hsent : ∀ w, k ≤ w → w ≤ j / retryWindow → env.sent w = .ok ())
    (hcert : ch.certAt env j = some cert) :
    ∃ cert', ch.loop env remaining k i (ch.kept env i) = .ok (some cert') := by
  induction remaining using Nat.strong_induction_on generalizing k i with
  | _ remaining ih =>
    have hk : k ≤ j / retryWindow := (Nat.le_div_iff_mul_le Nat.ofNat_pos).mpr (hi ▸ hle)
    rw [loop, hsent k (Nat.le_refl k) hk]
    rcases window_kept ch env (min remaining retryWindow) i with
      ⟨j', cert', -, -, -, hwindow⟩ | ⟨hnone, hwindow⟩
    · generalize ch.window env (min remaining retryWindow) i (ch.kept env i) = r at hwindow
      obtain ⟨found, votes⟩ := r
      obtain rfl : found = some cert' := hwindow
      exact ⟨cert', rfl⟩
    · -- round `j` lies behind this window, so the loop goes on
      have hbehind : i + min remaining retryWindow ≤ j := by
        refine Nat.not_lt.mp fun hin => ?_
        rw [hnone j hle hin] at hcert
        cases hcert
      have hmore : ¬ remaining - min remaining retryWindow = 0 := by omega
      have hfull := min_retryWindow hmore
      simp only [hwindow, if_neg hmore]
      rw [hfull] at hbehind hmore ⊢
      exact ih (remaining - retryWindow) (by unfold retryWindow at *; omega)
        (by rw [hi, Nat.succ_mul]) hbehind (by omega)
        (fun w hkw hwj => hsent w (by omega) hwj)

/-- The rounds that the budget reaches, all in all. -/
theorem collect_eq_ok {maxRounds : Nat} (h : ch.collect env maxRounds = .ok (some cert)) :
    ∃ i, env.Reaches maxRounds i ∧ ch.certAt env i = some cert := by
  have hloop : ch.loop env (max maxRounds 1) 0 0 (ch.kept env 0) = .ok (some cert) := h
  obtain ⟨i, -, hlt, hsent, hcert⟩ := loop_eq_ok (Nat.zero_mul _).symm hloop
  exact ⟨i, ⟨by omega, fun k => hsent k (Nat.zero_le k)⟩, hcert⟩

theorem exists_collect_iff {maxRounds : Nat} :
    (∃ cert, ch.collect env maxRounds = .ok (some cert)) ↔
      ∃ i cert, env.Reaches maxRounds i ∧ ch.certAt env i = some cert := by
  constructor
  · rintro ⟨cert, h⟩
    obtain ⟨i, hi, hcert⟩ := collect_eq_ok h
    exact ⟨i, cert, hi, hcert⟩
  · rintro ⟨i, cert, hi, hcert⟩
    exact exists_of_certAt (Nat.zero_mul _).symm (Nat.zero_le i) (by have := hi.budget; omega)
      (fun k _ hk => hi.sent k hk) hcert

/-! ## The votes kept -/

variable {v : EpochVote}

theorem admits_iff : ch.admits v = true ↔ ch.Counts v := by
  constructor
  · intro h
    unfold admits at h
    split at h
    · cases h
    · next hfields =>
      simp only [not_or, not_not] at hfields
      split at h
      · cases h
      · next key hkey => exact ⟨hfields.1, hfields.2.1, hfields.2.2, key, hkey, of_decide_eq_true h⟩
  · intro h
    obtain ⟨key, hkey, hsigned⟩ := h.signed
    rw [admits, if_neg (by simp [h.epoch, h.committee, h.next]), hkey]
    exact decide_eq_true hsigned

theorem voteOf_eq_some {m : AuthorityMsg} :
    ch.voteOf m = some v ↔ m = .epochVote v ∧ ch.Counts v := by
  cases m with
  | epochVote w =>
    simp only [voteOf, Option.ite_none_right_eq_some, Option.some.injEq,
      AuthorityMsg.epochVote.injEq, ← admits_iff]
    constructor
    · rintro ⟨hw, rfl⟩
      exact ⟨rfl, hw⟩
    · rintro ⟨rfl, hw⟩
      exact ⟨hw, rfl⟩
  | _ => simp [voteOf]

variable {ms : List AuthorityMsg}

theorem mem_votesIn : v ∈ ch.votesIn ms ↔ .epochVote v ∈ ms ∧ ch.Counts v := by
  simp only [votesIn, List.mem_filterMap, voteOf_eq_some]
  constructor
  · rintro ⟨m, hm, rfl, hv⟩
    exact ⟨hm, hv⟩
  · rintro ⟨hm, hv⟩
    exact ⟨_, hm, rfl, hv⟩

variable {votes : List EpochVote}

theorem mem_receive {m : AuthorityMsg} :
    v ∈ ch.receive votes m ↔
      v ∈ votes ∨ ch.voteOf m = some v ∧ ∀ w ∈ votes, w.authority ≠ v.authority := by
  cases m with
  | epochVote w =>
    simp only [receive, voteOf]
    split
    · next h =>
      simp only [Bool.and_eq_true, Bool.not_eq_true', List.any_eq_false, decide_eq_true_eq] at h
      rw [List.mem_append, List.mem_singleton, if_pos h.1, Option.some.injEq]
      constructor
      · rintro (hv | rfl)
        · exact .inl hv
        · exact .inr ⟨rfl, h.2⟩
      · rintro (hv | ⟨rfl, -⟩)
        · exact .inl hv
        · exact .inr rfl
    · next h =>
      refine (or_iff_left ?_).symm
      rintro ⟨hw, hfresh⟩
      obtain ⟨hadmits, rfl⟩ := Option.ite_none_right_eq_some.mp hw |>.imp_right Option.some.inj
      refine h ?_
      rw [hadmits, Bool.true_and, Bool.not_eq_true', List.any_eq_false]
      simpa using hfresh
  | _ => simp [receive, voteOf]

theorem first_append (ms : List AuthorityMsg) (m : AuthorityMsg) (a : AuthorityId) :
    ch.first (ms ++ [m]) a =
      (ch.first ms a).or ((ch.voteOf m).filter fun v => v.authority = a) := by
  rw [first, votesIn, List.filterMap_append, List.find?_append, first, votesIn]
  congr 1
  cases hm : ch.voteOf m with
  | none => rw [List.filterMap_cons_none hm]; rfl
  | some v =>
    rw [List.filterMap_cons_some hm, List.filterMap_nil, List.find?_singleton]
    rfl

/-- The loop keeps the first valid vote of each member. -/
theorem mem_foldl_receive (ms : List AuthorityMsg) (v : EpochVote) :
    v ∈ ms.foldl ch.receive [] ↔ ch.first ms v.authority = some v := by
  induction ms using List.reverseRecOn generalizing v with
  | nil => simp [first, votesIn]
  | append_singleton ms m ih =>
    rw [List.foldl_concat, mem_receive, ih, first_append]
    cases hfirst : ch.first ms v.authority with
    | some u =>
      have hu : u.authority = v.authority := by
        simpa using List.find?_some hfirst
      have hmem : u ∈ ms.foldl ch.receive [] := (ih u).mpr (hu ▸ hfirst)
      show _ ↔ some u = some v
      refine or_iff_left ?_
      rintro ⟨-, hfresh⟩
      exact hfresh u hmem hu
    | none =>
      have hfresh : ∀ w ∈ ms.foldl ch.receive [], w.authority ≠ v.authority := by
        intro w hw heq
        rw [← heq, (ih w).mp hw] at hfirst
        cases hfirst
      rw [Option.none_or, Option.filter_eq_some_iff]
      constructor
      · rintro (h | ⟨hm, -⟩)
        · cases h
        · exact ⟨hm, decide_eq_true rfl⟩
      · rintro ⟨hm, -⟩
        exact .inr ⟨hm, hfresh⟩

theorem nodup_foldl_receive (ms : List AuthorityMsg) :
    ((ms.foldl ch.receive []).map (·.authority)).Nodup := by
  induction ms using List.reverseRecOn with
  | nil => exact List.nodup_nil
  | append_singleton ms m ih =>
    rw [List.foldl_concat]
    cases m with
    | epochVote v =>
      simp only [receive]
      split
      · next h =>
        simp only [Bool.and_eq_true, Bool.not_eq_true', List.any_eq_false, decide_eq_true_eq] at h
        rw [List.map_append, List.map_singleton, ← List.concat_eq_append]
        refine ih.concat ?_
        rintro hmem
        obtain ⟨w, hw, heq⟩ := List.mem_map.mp hmem
        exact h.2 w hw heq
      · exact ih
    | _ => exact ih

/-! ## The certificate of a round -/

variable {visit : List Digest → List Digest} {d : Digest}

section

omit [Crypto]

theorem mem_byDigest (hvisit : ∀ l, (visit l).Perm l) {group : List EpochVote} :
    (d, group) ∈ byDigest visit votes ↔
      (∃ v ∈ votes, v.frontierDigest = d) ∧ group = votes.filter (·.frontierDigest = d) := by
  simp only [byDigest, List.mem_map, (hvisit _).mem_iff, List.mem_dedup, Prod.mk.injEq]
  constructor
  · rintro ⟨_, hd, rfl, rfl⟩
    exact ⟨hd, rfl⟩
  · rintro ⟨hd, rfl⟩
    exact ⟨d, hd, rfl, rfl⟩

/-- A certificate is made of the votes for one digest, as many as a quorum needs. -/
theorem assemble_eq_some (hvisit : ∀ l, (visit l).Perm l)
    (h : ch.assemble visit votes = some cert) :
    ∃ d, ∃ first ∈ votes, first.frontierDigest = d ∧
      ch.committee.quorum ≤ (votes.filter (·.frontierDigest = d)).length ∧
      cert = ⟨ch.proposal.epoch, ch.proposal.nextRoster, first.frontier,
        (votes.filter (·.frontierDigest = d)).take ch.committee.quorum⟩ := by
  unfold assemble at h
  split at h
  · cases h
  · next d group hfound =>
    obtain ⟨-, rfl⟩ := (mem_byDigest hvisit).mp (List.mem_of_find?_eq_some hfound)
    obtain ⟨first, hfirst, rfl⟩ := Option.map_eq_some_iff.mp h
    obtain ⟨hmem, hd⟩ := List.mem_filter.mp (List.mem_of_head? hfirst)
    exact ⟨d, first, hmem, of_decide_eq_true hd, by simpa using List.find?_some hfound, rfl⟩

theorem exists_assemble (hvisit : ∀ l, (visit l).Perm l)
    (h : ch.committee.quorum ≤ (votes.filter (·.frontierDigest = d)).length) :
    ∃ cert, ch.assemble visit votes = some cert := by
  have hpos := ch.committee.quorum_pos
  unfold assemble
  split
  · next hnone =>
    obtain ⟨v, hv⟩ := List.exists_mem_of_length_pos (hpos.trans_le h)
    obtain ⟨hv, hd⟩ := List.mem_filter.mp hv
    have hmem := (mem_byDigest hvisit).mpr ⟨⟨v, hv, of_decide_eq_true hd⟩, rfl⟩
    exact absurd (decide_eq_true h) (List.find?_eq_none.mp hnone _ hmem)
  · next group hfound =>
    have hlen : ch.committee.quorum ≤ group.length := by simpa using List.find?_some hfound
    obtain ⟨first, hfirst⟩ := List.exists_mem_of_length_pos (hpos.trans_le hlen)
    cases group with
    | nil => cases hfirst
    | cons v group => exact ⟨_, rfl⟩

end

/-- The first valid votes for `d` are the ones kept for it, one for each member. -/
theorem quorateFirst_iff : ch.QuorateFirst ms d ↔
    ch.committee.quorum ≤ ((ms.foldl ch.receive []).filter (·.frontierDigest = d)).length := by
  have hnodup : (((ms.foldl ch.receive []).filter (·.frontierDigest = d)).map
      (·.authority)).Nodup := (nodup_foldl_receive ms).sublist (List.filter_sublist.map _)
  have hcard := List.toFinset_card_of_nodup hnodup
  rw [List.length_map] at hcard
  constructor
  · rintro ⟨S, hquorum, hS⟩
    rw [← hcard]
    refine hquorum.trans (Finset.card_le_card fun a ha => ?_)
    obtain ⟨v, hfirst, hd⟩ := hS a ha
    have hauth : v.authority = a := by simpa using List.find?_some hfirst
    rw [List.mem_toFinset, ← hauth]
    exact List.mem_map_of_mem (List.mem_filter.mpr
      ⟨(mem_foldl_receive ms v).mpr (hauth ▸ hfirst), decide_eq_true hd⟩)
  · intro hquorum
    refine ⟨_, hcard ▸ hquorum, fun a ha => ?_⟩
    obtain ⟨v, hv, rfl⟩ := List.mem_map.mp (List.mem_toFinset.mp ha)
    obtain ⟨hv, hd⟩ := List.mem_filter.mp hv
    exact ⟨v, (mem_foldl_receive ms v).mp hv, of_decide_eq_true hd⟩

theorem exists_certAt_iff :
    (∃ cert, ch.certAt env i = some cert) ↔ ∃ d, ch.QuorateFirst (env.heard i) d := by
  simp only [quorateFirst_iff]
  constructor
  · rintro ⟨cert, h⟩
    obtain ⟨d, -, -, -, hquorum, -⟩ := assemble_eq_some (env.visit_perm i) h
    exact ⟨d, hquorum⟩
  · rintro ⟨d, hquorum⟩
    exact exists_assemble (env.visit_perm i) hquorum

/-- Members that agree with their first votes agree. -/
theorem QuorateFirst.quorate (h : ch.QuorateFirst ms d) : ch.Quorate ms d := by
  obtain ⟨S, hquorum, hS⟩ := h
  refine ⟨S, hquorum, fun a ha => ?_⟩
  obtain ⟨v, hfirst, hd⟩ := hS a ha
  obtain ⟨hm, hv⟩ := mem_votesIn.mp (List.mem_of_find?_eq_some hfirst)
  exact ⟨v, hm, hv, by simpa using List.find?_some hfirst, hd⟩

/-! ## Installing -/

/-- The votes that the loop keeps pass the checks of an install. -/
theorem epochVotesLoop_eq_ok {cid nextId : CommitteeId} {old : Committee} {seen : List AuthorityId}
    (hvotes : ∀ v ∈ votes, v.epoch = cert.epoch ∧ v.committeeId = cid ∧ v.nextCommitteeId = nextId ∧
      v.frontierDigest = frontierDigest cert.frontier ∧
      ∃ key, old.keyOf v.authority = some key ∧ v.verifySignature key = .ok ())
    (hnodup : (votes.map (·.authority)).Nodup) (hseen : ∀ v ∈ votes, v.authority ∉ seen) :
    Authority.epochVotesLoop cid cert nextId old votes seen =
      .ok ((votes.map (·.authority)).reverse ++ seen) := by
  induction votes generalizing seen with
  | nil => rfl
  | cons v votes ih =>
    obtain ⟨hepoch, hcid, hnext, hfd, key, hkey, hsig⟩ := hvotes v List.mem_cons_self
    rw [List.map_cons, List.nodup_cons] at hnodup
    rw [Authority.epochVotesLoop, if_neg (by simp [hepoch, hcid, hnext, hfd]),
      if_neg (hseen v List.mem_cons_self)]
    simp only [hkey, hsig]
    rw [ih (fun w hw => hvotes w (List.mem_cons_of_mem v hw)) hnodup.2]
    · simp
    · intro w hw hmem
      rcases List.mem_cons.mp hmem with heq | hmem
      · exact hnodup.1 (heq ▸ List.mem_map_of_mem hw)
      · exact hseen w (List.mem_cons_of_mem v hw) hmem

/-- The certificate of a round is accepted wherever the change can be taken. -/
theorem acceptsEpochCert_of_certAt (h : ch.certAt env i = some cert)
    {x : Authority} (hx : ch.Ready x) : ∃ next, x.AcceptsEpochCert cert ch.committee next := by
  obtain ⟨d, v, hv, hd, hquorum, rfl⟩ := assemble_eq_some (env.visit_perm i) h
  obtain ⟨next, hnext, hmembers⟩ : ∃ next, Committee.withEpoch ch.proposal.nextRoster x.policy
      ch.proposal.epoch = some next ∧ next.members = ch.next.members :=
    Committee.withEpoch_members ch.formed
  have hid : ch.next.id = next.id := by
    rw [Committee.id, Committee.id, Committee.withEpoch_policy ch.formed,
      Committee.withEpoch_policy hnext, hmembers, hx.policy]
  -- every vote of the certificate is the first valid vote of its member
  have hcounts : ∀ w ∈ (ch.kept env (i + 1)), ch.Counts w := fun w hw =>
    (mem_votesIn.mp (List.mem_of_find?_eq_some ((mem_foldl_receive _ w).mp hw))).2
  have hfd : d = frontierDigest v.frontier := by
    obtain ⟨key, -, hsig⟩ := (hcounts v hv).signed
    exact hd.symm.trans (EpochVote.verifySignature_ok hsig).1
  have hepoch : ch.proposal.epoch = x.epoch + 1 := by
    have hroom : x.epoch.toNat + 1 < 2 ^ 64 := hx.epoch ▸ ch.proposal.epoch.isLt
    exact BitVec.eq_of_toNat_eq (by rw [Ledger.toNat_add_one hroom, hx.epoch])
  have hsub := (List.take_sublist ch.committee.quorum _).trans
    (List.filter_sublist (p := (·.frontierDigest = d)) (l := ch.kept env (i + 1)))
  refine ⟨next, hx.unpoisoned, hx.root.symm, hepoch, hnext, ?_⟩
  rw [Authority.checkEpochVotes, epochVotesLoop_eq_ok]
  · simp [hquorum]
  · intro w hw
    obtain ⟨hw, hwd⟩ := List.mem_filter.mp (List.mem_of_mem_take hw)
    have hc := hcounts w hw
    exact ⟨hc.epoch, hc.committee.trans hx.root.symm, hc.next.trans hid,
      (of_decide_eq_true hwd).trans hfd, hc.signed⟩
  · exact (nodup_foldl_receive _).sublist (hsub.map _)
  · intro w _ hmem
    cases hmem

theorem installs_of_certAt (h : ch.certAt env i = some cert) {x : Authority} (hx : ch.Ready x) :
    (x.installEpochCert cert ch.committee .stored).1 = .ok .installed ∨
    (x.installEpochCert cert ch.committee .stored).1 = .ok .installing := by
  obtain ⟨next, hacc⟩ := acceptsEpochCert_of_certAt h hx
  rw [Authority.installEpochCert, if_neg (by simp [hacc.unpoisoned]), if_neg (by simp [hacc.root]),
    if_neg (by simp [hacc.epoch])]
  simp only [hacc.roster, hacc.votes, Authority.acceptEpochCert_stored hx.idle]
  split
  · exact .inl rfl
  · exact .inr rfl

/-! ## Collection -/

/-- Collection is complete exactly when, in case some round sees a quorum of members with votes for
one digest, the first votes of a quorum agree in some round. -/
theorem faithful_iff (ch : Change) (env : Env) (maxRounds : Nat) : ch.Faithful env maxRounds ↔
    ((∃ i, env.Reaches maxRounds i ∧ ∃ d, ch.Quorate (env.heard i) d) →
      ∃ i, env.Reaches maxRounds i ∧ ∃ d, ch.QuorateFirst (env.heard i) d) := by
  have hcollect : (∃ cert, ch.collect env maxRounds = .ok (some cert)) ↔
      ∃ i, env.Reaches maxRounds i ∧ ∃ d, ch.QuorateFirst (env.heard i) d := by
    simp only [exists_collect_iff, ← exists_certAt_iff, exists_and_left]
  constructor
  · intro h hquorate
    exact hcollect.mp (h.complete.mpr hquorate)
  · intro h
    refine ⟨⟨fun hcert => ?_, fun hquorate => hcollect.mpr (h hquorate)⟩, ?_⟩
    · obtain ⟨i, hi, d, hfirst⟩ := hcollect.mp hcert
      exact ⟨i, hi, d, hfirst.quorate⟩
    · intro cert hcert x hx
      obtain ⟨i, -, hcert⟩ := collect_eq_ok hcert
      exact installs_of_certAt hcert hx

end Change
end Collection

namespace Demo

open Transfer333.Demo

/-- The members of `quad` hand over to `a3` alone. -/
def change : Change := (Change.propose quad soloRoster 1).toOption.get (by decide +kernel)

/-- The vote of a member over its frontier. -/
def vote (m : AuthorityId × SigningKey) (f : Frontier) : EpochVote :=
  .sign m.1 quad.id 1 solo.id f m.2

/-- `a0` votes over its genesis frontier, and like the others once it has applied a transfer. -/
def env : Env where
  polled _ := .epochVote (vote (a0, key 0) []) ::
    (quadRoster.take 3).map fun m => .epochVote (vote m [(alice, 1)])
  sent _ := .ok ()
  visit _ := id
  visit_perm _ l := .refl l

theorem collect_env : change.collect env 1 = .ok none := by
  rw [Change.collect, Change.loop]
  decide +kernel

/-- Three of the four members agree by the end of the only round. -/
theorem quorate_env : change.Quorate (env.heard 0) (frontierDigest [(alice, 1)]) := by
  have hvotes : ∀ m ∈ quadRoster.take 3, .epochVote (vote m [(alice, 1)]) ∈ env.heard 0 ∧
      change.admits (vote m [(alice, 1)]) = true := by decide +kernel
  refine ⟨((quadRoster.take 3).map Prod.fst).toFinset, by decide +kernel, fun a ha => ?_⟩
  obtain ⟨m, hm, rfl⟩ := List.mem_map.mp (List.mem_toFinset.mp ha)
  exact ⟨_, (hvotes m hm).1, Change.admits_iff.mp (hvotes m hm).2, rfl, rfl⟩

/-- The loop does not hear that quorum. -/
theorem collect_misses_quorum : ∃ (ch : Change) (env : Env) (maxRounds : Nat),
    ¬ ch.Faithful env maxRounds := by
  refine ⟨change, env, 1, fun h => ?_⟩
  obtain ⟨cert, hcert⟩ := h.complete.mpr ⟨0, ⟨by decide, fun k _ => rfl⟩, _, quorate_env⟩
  rw [collect_env] at hcert
  cases hcert

end Demo
end P2P333.Transfer333.Reconfig
