import P2P333.Transfer333.Authority
import P2P333.Transfer333.Codec.Wire

/-!
# Collecting votes

The vote collector of `333-transfer/src/net.rs`. It drains a mailbox round by round, keeps the first
vote of each member that is valid for its order, and assembles a certificate as soon as a quorum has
voted.

Anybody may put messages into the mailbox. A vote is validated before its name is remembered, so an
invalid vote under a member's name does not keep the valid one out.

Results:
1. `Collected.pollRound`: what the collector holds after the messages of some rounds.
2. `tryAssemble_iff`: it assembles a certificate exactly if a quorum has sent valid votes for an
   order of the owner.
-/

namespace P2P333.Transfer333

open Std Lib

variable [Crypto]

/-! ## Certificates -/

namespace Certificate

variable {order : SignedTransfer} {c : Committee} {votes : List Vote}

/-- Valid votes of different members pass the loop of `validate`. -/
theorem validateLoop_of_valid {distinct : List AuthorityId}
    (hvotes : ∀ v ∈ votes, v.validateFor order c = .ok ())
    (hnodup : (votes.map (·.authority)).Nodup)
    (hfresh : ∀ v ∈ votes, v.authority ∉ distinct) :
    validateLoop order c votes distinct = .ok ((votes.map (·.authority)).reverse ++ distinct) := by
  induction votes generalizing distinct with
  | nil => rfl
  | cons v votes ih =>
    obtain ⟨hv, hvotes⟩ := List.forall_mem_cons.mp hvotes
    obtain ⟨hnew, hfresh⟩ := List.forall_mem_cons.mp hfresh
    obtain ⟨hother, hnodup⟩ := List.nodup_cons.mp hnodup
    have hrest : ∀ w ∈ votes, w.authority ∉ v.authority :: distinct := by
      intro w hw hmem
      rcases List.mem_cons.mp hmem with heq | hmem
      · exact hother (List.mem_map.mpr ⟨w, hw, heq⟩)
      · exact hfresh w hw hmem
    simp only [validateLoop, hv, if_neg hnew]
    rw [ih hvotes hnodup hrest, List.map_cons, List.reverse_cons, List.append_assoc]
    rfl

/-- Valid votes of different members make a valid certificate exactly if they are a quorum, and the
order is one of the owner. -/
theorem validate_iff (hvotes : ∀ v ∈ votes, v.validateFor order c = .ok ())
    (hnodup : (votes.map (·.authority)).Nodup) :
    validate ⟨order, votes⟩ c = .ok () ↔
      order.verify c.policy = .ok () ∧ c.quorum ≤ votes.length := by
  constructor
  · intro h
    have hvalid := validate_ok h
    exact ⟨hvalid.owner, by simpa [signers] using hvalid.quorate⟩
  · rintro ⟨howner, hquorum⟩
    have hsome : votes.isEmpty = false := by
      have hpositive := c.quorum_pos
      cases votes with
      | nil => exact absurd hquorum (Nat.not_le.mpr hpositive)
      | cons v votes => rfl
    have hloop : validateLoop order c votes [] = .ok _ :=
      validateLoop_of_valid hvotes hnodup fun _ _ => List.not_mem_nil
    unfold validate
    simp only [howner, hsome, hloop, Bool.false_eq_true, if_false, List.append_nil,
      List.length_reverse,
      List.length_map, if_neg (Nat.not_lt.mpr hquorum)]

theorem assemble_eq_some {cert : Certificate} :
    assemble order votes c = some cert ↔ cert = ⟨order, votes⟩ ∧
    validate ⟨order, votes⟩ c = .ok () := by
  unfold assemble
  split_ifs with h
  · exact ⟨fun heq => ⟨(Option.some.inj heq).symm, isValid_iff.mp h⟩, fun heq =>
      congrArg some heq.1.symm⟩
  · exact ⟨nofun, fun heq => absurd (isValid_iff.mpr heq.2) h⟩

end Certificate

/-! ## The collector -/

structure VoteCollector where
  order : SignedTransfer
  votes : List Vote
  seen : List AuthorityId
  refusals : Nat
  contested : Bool

namespace VoteCollector

def new (order : SignedTransfer) : VoteCollector := ⟨order, [], [], 0, false⟩

/-- One message of a round. -/
def receive (c : Committee) (vc : VoteCollector) : AuthorityMsg → VoteCollector
  | .vote v =>
    match v.validateFor vc.order c with
    | .error _ => vc
    | .ok () =>
      if v.authority ∈ vc.seen then vc
      else { vc with votes := vc.votes ++ [v], seen := v.authority :: vc.seen }
  | _ => vc

/-- One round: the messages that `poll` returns. -/
def pollRound (c : Committee) (vc : VoteCollector) (msgs : List AuthorityMsg) : VoteCollector :=
  msgs.foldl (receive c) vc

def tryAssemble (vc : VoteCollector) (c : Committee) : Option Certificate :=
  Certificate.assemble vc.order vc.votes c

end VoteCollector

/-! ## Statement -/

/-- The members from which there is a vote that is valid for the order make a quorum. -/
def Voted (order : SignedTransfer) (c : Committee) (msgs : List AuthorityMsg) : Prop :=
  ∃ voters : Finset AuthorityId, c.quorum ≤ voters.card ∧
    ∀ a ∈ voters, a ∈ c.seats ∧ ∃ v, .vote v ∈ msgs ∧ v.authority = a ∧
    v.validateFor order c = .ok ()

/-- The owner has signed the order, and a quorum has voted for it. -/
def Certifiable (order : SignedTransfer) (c : Committee) (msgs : List AuthorityMsg) : Prop :=
  order.verify c.policy = .ok () ∧ Voted order c msgs

namespace VoteCollector

variable {order : SignedTransfer} {c : Committee} {msgs : List AuthorityMsg} {vc : VoteCollector}

/-- One valid vote is held of each member from which there has been one. -/
structure Collected (order : SignedTransfer) (c : Committee) (msgs : List AuthorityMsg)
    (vc : VoteCollector) :
    Prop where
  same : vc.order = order
  seen : ∀ a, a ∈ vc.seen ↔ a ∈ vc.votes.map (·.authority)
  nodup : (vc.votes.map (·.authority)).Nodup
  sound : ∀ v ∈ vc.votes, .vote v ∈ msgs ∧ v.validateFor order c = .ok ()
  complete : ∀ v, .vote v ∈ msgs → v.validateFor order c = .ok () → v.authority ∈ vc.seen

theorem collected_new : Collected order c [] (.new order) :=
  ⟨rfl, fun _ => Iff.rfl, List.nodup_nil, nofun, nofun⟩

section

variable (h : Collected order c msgs vc)
include h

/-- A message that adds nothing. -/
theorem Collected.skip {msg : AuthorityMsg}
    (hskip : ∀ v, msg = .vote v → v.validateFor order c = .ok () → v.authority ∈ vc.seen) :
    Collected order c (msgs ++ [msg]) vc := by
  refine ⟨h.same, h.seen, h.nodup, fun v hv => ?_, fun v hv hvalid => ?_⟩
  · exact ⟨List.mem_append_left _ (h.sound v hv).1, (h.sound v hv).2⟩
  · rcases List.mem_append.mp hv with hv | hv
    · exact h.complete v hv hvalid
    · exact hskip v (List.mem_singleton.mp hv).symm hvalid

theorem Collected.receive (msg : AuthorityMsg) :
    Collected order c (msgs ++ [msg]) (vc.receive c msg) := by
  obtain rfl := h.same
  cases msg with
  | vote v =>
    unfold VoteCollector.receive
    dsimp only
    cases hv : v.validateFor vc.order c with
    | error e =>
      refine h.skip fun w hw hvalid => ?_
      cases hw
      cases hv.symm.trans hvalid
    | ok _ =>
      dsimp only
      split_ifs with hseen
      · refine h.skip fun w hw _ => ?_
        cases hw
        exact hseen
      · have hnew : v.authority ∉ vc.votes.map (·.authority) := (h.seen _).not.mp hseen
        refine ⟨rfl, fun a => ?_, ?_, fun w hw => ?_, fun w hw hvalid => ?_⟩
        · rw [List.mem_cons, List.map_append, List.mem_append, h.seen, or_comm]
          exact or_congr_right List.mem_singleton.symm
        · rw [List.map_append]
          refine List.nodup_append.mpr ⟨h.nodup, List.nodup_singleton _,
            fun a ha b hb heq => hnew ?_⟩
          have hname : a = v.authority := heq.trans (List.mem_singleton.mp hb)
          exact hname ▸ ha
        · rcases List.mem_append.mp hw with hw | hw
          · exact ⟨List.mem_append_left _ (h.sound w hw).1, (h.sound w hw).2⟩
          · cases List.mem_singleton.mp hw
            exact ⟨List.mem_append_right _ (List.mem_singleton_self _), hv⟩
        · rcases List.mem_append.mp hw with hw | hw
          · exact List.mem_cons_of_mem _ (h.complete w hw hvalid)
          · cases List.mem_singleton.mp hw
            exact List.mem_cons_self
  | _ => exact h.skip nofun

theorem Collected.pollRound (round : List AuthorityMsg) :
    Collected order c (msgs ++ round) (vc.pollRound c round) := by
  unfold VoteCollector.pollRound
  induction round generalizing msgs vc with
  | nil => rwa [List.append_nil]
  | cons msg round ih =>
    rw [List.append_cons]
    exact ih (h.receive msg)

theorem Collected.pollRounds (rounds : List (List AuthorityMsg)) :
    Collected order c (msgs ++ rounds.flatten) (rounds.foldl (VoteCollector.pollRound c) vc) := by
  induction rounds generalizing msgs vc with
  | nil => rwa [List.flatten_nil, List.append_nil]
  | cons round rounds ih =>
    rw [List.flatten_cons, ← List.append_assoc]
    exact ih (h.pollRound round)

/-- As many votes are held as members have sent a valid one. -/
theorem Collected.quorum_le_iff :
    c.quorum ≤ vc.votes.length ↔ Voted order c msgs := by
  constructor
  · intro hquorum
    refine ⟨(vc.votes.map (·.authority)).toFinset, ?_, fun a ha => ?_⟩
    · rwa [List.toFinset_card_of_nodup h.nodup, List.length_map]
    · obtain ⟨v, hv, rfl⟩ := List.mem_map.mp (List.mem_toFinset.mp ha)
      obtain ⟨hmem, hvalid⟩ := h.sound v hv
      obtain ⟨key, hkey, -⟩ := (Vote.validateFor_ok hvalid).signed
      exact ⟨Committee.mem_seats hkey, v, hmem, rfl, hvalid⟩
  · rintro ⟨voters, hquorum, hvoters⟩
    have hsub : voters ⊆ (vc.votes.map (·.authority)).toFinset := by
      intro a ha
      obtain ⟨-, v, hv, rfl, hvalid⟩ := hvoters a ha
      exact List.mem_toFinset.mpr ((h.seen _).mp (h.complete v hv hvalid))
    have hcard := Finset.card_le_card hsub
    rw [List.toFinset_card_of_nodup h.nodup, List.length_map] at hcard
    exact hquorum.trans hcard

theorem Collected.assembles_iff : (vc.tryAssemble c).isSome ↔ Certifiable order c msgs := by
  have hvalidate := Certificate.validate_iff (fun v hv => (h.sound v hv).2) h.nodup
  rw [h.quorum_le_iff] at hvalidate
  unfold tryAssemble
  rw [h.same, Option.isSome_iff_exists]
  simp only [Certificate.assemble_eq_some, exists_eq_left]
  exact hvalidate

end

/-- However the messages are cut into rounds: a certificate is assembled exactly if the owner has
signed the order and the messages contain valid votes of a quorum, and it is valid. -/
theorem tryAssemble_iff (order : SignedTransfer) (c : Committee)
    (rounds : List (List AuthorityMsg)) :
    (((rounds.foldl (pollRound c) (.new order)).tryAssemble c).isSome ↔
      order.verify c.policy = .ok () ∧ Voted order c rounds.flatten) ∧
    ∀ cert, (rounds.foldl (pollRound c) (.new order)).tryAssemble c = some cert →
    cert.validate c = .ok () := by
  refine ⟨(collected_new.pollRounds rounds).assembles_iff, fun cert hcert => ?_⟩
  obtain ⟨rfl, hvalid⟩ := Certificate.assemble_eq_some.mp hcert
  exact hvalid

end VoteCollector

end P2P333.Transfer333
