import P2P333.Iam333.Capability

/-!
# Replay of tokens

Runs of the verifier of `333-iam/src/capability.rs`. A call that names the service and lies in the
window of its token takes the nonce, whether or not its capability and its signature are good.

Results:
1. `accepted_nodup`: no token is accepted twice.
2. `unchanged_iff`: when the answers to the other calls do not depend on calls that fail.
-/

namespace P2P333.Iam333

open Lib Consensus333 Function

/-- The calls of the replay cache. -/
inductive Call where
  | verify (token : CapabilityToken) (service required : String) (nowMs : UInt64)
  | purgeExpired (nowMs : UInt64)
deriving DecidableEq

def Call.nowMs : Call → UInt64
  | .verify _ _ _ nowMs => nowMs
  | .purgeExpired nowMs => nowMs

/-- A purge has no answer. -/
abbrev Answer := Option (Except CapabilityError Unit)

/-- A call that may have been inserted into a run. -/
structure Marked where
  inserted : Bool
  call : Call

namespace InMemoryVerifier

section Runs

variable [Ed25519]

def step (v : InMemoryVerifier) : Call → Answer × InMemoryVerifier
  | .verify token service required nowMs =>
    let r := v.verify token service required nowMs
    (some r.1, r.2)
  | .purgeExpired nowMs => (none, v.purgeExpired nowMs)

def run (v : InMemoryVerifier) : List Call → List Answer
  | [] => []
  | c :: calls => (v.step c).1 :: (v.step c).2.run calls

/-- The tokens that are accepted. -/
def accepted (v : InMemoryVerifier) : List Call → List CapabilityToken
  | [] => []
  | c :: calls =>
    match c with
    | .verify token service required nowMs =>
      if (v.verify token service required nowMs).1 = .ok () then
        token :: (v.step c).2.accepted calls
      else (v.step c).2.accepted calls
    | .purgeExpired _ => (v.step c).2.accepted calls

/-- The answers to the calls that were not inserted. -/
def kept (v : InMemoryVerifier) : List Marked → List Answer
  | [] => []
  | m :: l =>
    if m.inserted then (v.step m.call).2.kept l
    else (v.step m.call).1 :: (v.step m.call).2.kept l

/-- The calls that were not inserted. -/
def originals (l : List Marked) : List Call := (l.filter fun m => !m.inserted).map Marked.call

/-- The inserted calls are attempts to verify that fail. -/
def Failing (v : InMemoryVerifier) : List Marked → Prop
  | [] => True
  | m :: l => (m.inserted → ∃ token service required nowMs,
      m.call = .verify token service required nowMs ∧
        (v.verify token service required nowMs).1 ≠ .ok ()) ∧
    (v.step m.call).2.Failing l

/-- The call names the service, in the window of its token. -/
def Admitted (token : CapabilityToken) (service : String) (nowMs : UInt64) : Prop :=
  token.audience = service ∧ token.notBeforeMs ≤ nowMs ∧ nowMs < token.expiresAtMs

/-- The nonces in the table that an inserted call has put there. -/
def burnt (v v' : InMemoryVerifier) (inserted : Bool) (B : Set String) : Set String :=
  {n | v'.seenNonces n ≠ none ∧ (n ∈ B ∨ (inserted ∧ v.seenNonces n = none))}

/-- No call that was not inserted, names its service and lies in its window comes with a burnt
nonce. -/
def Clean (v : InMemoryVerifier) (B : Set String) : List Marked → Prop
  | [] => True
  | m :: l =>
    (m.inserted = false → ∀ token service required nowMs, m.call =
      .verify token service required nowMs →
      Admitted token service nowMs → token.nonce ∉ B) ∧
    (v.step m.call).2.Clean (burnt v (v.step m.call).2 m.inserted B) l

/-! ## One call -/

variable {v v₀ : InMemoryVerifier} {token t : CapabilityToken} {service required : String}
  {nowMs now : UInt64} {B : Set String}

theorem verify_not_admitted (required : String) (h : ¬ Admitted token service nowMs) :
    ∃ e, ∀ v : InMemoryVerifier, v.verify token service required nowMs = (.error e, v) := by
  by_cases haudience : token.audience = service
  · refine ⟨.expired token.expiresAtMs nowMs, fun v => ?_⟩
    have hwindow : nowMs < token.notBeforeMs ∨ token.expiresAtMs ≤ nowMs := by
      by_contra hwindow
      rw [not_or, UInt64.not_lt, UInt64.not_le] at hwindow
      exact h ⟨haudience, hwindow⟩
    rw [verify, if_neg (not_not.mpr haudience), if_pos hwindow]
  · refine ⟨.audienceMismatch token.audience service, fun v => ?_⟩
    rw [verify, if_pos haudience]

theorem verify_seen (h : Admitted token service nowMs) (hseen : v.seenNonces token.nonce ≠ none) :
    v.verify token service required nowMs = (.error (.nonceReplay token.nonce), v) := by
  have hwindow : ¬ (nowMs < token.notBeforeMs ∨ token.expiresAtMs ≤ nowMs) := by
    rw [not_or, UInt64.not_lt, UInt64.not_le]
    exact h.2
  rw [verify, if_neg (not_not.mpr h.1), if_neg hwindow,
    if_pos (Option.isSome_iff_ne_none.mpr hseen)]

/-- A fresh nonce is taken, and the answer does not depend on the table. -/
theorem verify_fresh (token : CapabilityToken) (service required : String) (nowMs : UInt64)
    (h : Admitted token service nowMs) :
    ∃ a, a ≠ .error (.nonceReplay token.nonce) ∧ ∀ v :
      InMemoryVerifier, v.seenNonces token.nonce = none →
      v.verify token service required nowMs =
        (a, ⟨update v.seenNonces token.nonce (some token.expiresAtMs)⟩) := by
  have hwindow : ¬ (nowMs < token.notBeforeMs ∨ token.expiresAtMs ≤ nowMs) := by
    rw [not_or, UInt64.not_lt, UInt64.not_le]
    exact h.2
  have hbegin : ∀ v : InMemoryVerifier, v.seenNonces token.nonce = none →
      ¬ (v.seenNonces token.nonce).isSome := fun v hv => by simp [hv]
  by_cases hrequired : required ∈ token.capabilities
  · by_cases hsig : Ed25519.verify token.issuer token.bytes token.sig = true
    · refine ⟨.ok (), nofun, fun v hv => ?_⟩
      rw [verify, if_neg (not_not.mpr h.1), if_neg hwindow, if_neg (hbegin v hv),
        if_neg (not_not.mpr hrequired), if_pos hsig]
    · refine ⟨.error .invalidSignature, nofun, fun v hv => ?_⟩
      rw [verify, if_neg (not_not.mpr h.1), if_neg hwindow, if_neg (hbegin v hv),
        if_neg (not_not.mpr hrequired), if_neg hsig]
  · refine ⟨.error (.insufficientCapability required token.capabilities), nofun, fun v hv => ?_⟩
    rw [verify, if_neg (not_not.mpr h.1), if_neg hwindow, if_neg (hbegin v hv), if_pos hrequired]

theorem verify_keeps (v : InMemoryVerifier) (token : CapabilityToken) (service required : String)
    (nowMs : UInt64) (n : String) (h : v.seenNonces n ≠ none) :
    (v.step (.verify token service required nowMs)).2.seenNonces n = v.seenNonces n := by
  by_cases hadmitted : Admitted token service nowMs
  · by_cases hseen : v.seenNonces token.nonce = none
    · obtain ⟨a, -, ha⟩ := verify_fresh token service required nowMs hadmitted
      have hne : n ≠ token.nonce := by
        rintro rfl
        exact h hseen
      rw [step, ha v hseen]
      exact update_of_ne hne _ _
    · rw [step, verify_seen hadmitted hseen]
  · obtain ⟨e, he⟩ := verify_not_admitted required hadmitted
    rw [step, he]

/-- All that a call can do to a nonce in the table. -/
theorem table_step (v : InMemoryVerifier) (c : Call) (n : String) (exp : UInt64)
    (h : v.seenNonces n = some exp) :
    (v.step c).2.seenNonces n = some exp ∨ ((v.step c).2.seenNonces n = none ∧ exp ≤ c.nowMs) := by
  cases c with
  | verify token service required nowMs =>
    refine .inl ((verify_keeps v token service required nowMs n ?_).trans h)
    rw [h]
    nofun
  | purgeExpired nowMs =>
    show (v.seenNonces n).filter _ = _ ∨ ((v.seenNonces n).filter _ = none ∧ _)
    rw [h, Option.filter_some]
    split
    · exact .inl rfl
    · next hexp => exact .inr ⟨rfl, UInt64.not_lt.mp fun hlt => hexp (decide_eq_true hlt)⟩

/-! ## Accepted once -/

/-- A token that was accepted is in the table or has expired. -/
theorem accepted_nodup_from (calls : List Call) (A : List CapabilityToken)
    (hA : ∀ t ∈ A, v.seenNonces t.nonce = some t.expiresAtMs ∨ t.expiresAtMs ≤ now)
    (hnow : ∀ c ∈ calls, now ≤ c.nowMs) (hsorted : (calls.map Call.nowMs).Pairwise (· ≤ ·)) :
    (v.accepted calls).Nodup ∧ ∀ t ∈ v.accepted calls, t ∉ A := by
  induction calls generalizing v A now with
  | nil => exact ⟨List.nodup_nil, nofun⟩
  | cons c calls ih =>
    rw [List.map_cons, List.pairwise_cons] at hsorted
    have hnow' : ∀ d ∈ calls, c.nowMs ≤ d.nowMs := fun d hd => hsorted.1 _ (List.mem_map_of_mem hd)
    have hle := hnow c List.mem_cons_self
    have hA' : ∀ t ∈ A, (v.step c).2.seenNonces t.nonce = some t.expiresAtMs ∨
      t.expiresAtMs ≤ c.nowMs := by
      intro t ht
      rcases hA t ht with hseen | hexpired
      · exact (table_step v c _ _ hseen).imp_right And.right
      · exact .inr (UInt64.le_trans hexpired hle)
    cases c with
    | purgeExpired => exact ih A hA' hnow' hsorted.2
    | verify token service required nowMs =>
      simp only [accepted]
      split_ifs with hok
      · obtain ⟨haudience, hbefore, hexpires, hfresh, -⟩ := verify_eq_ok.mp hok
        have hnew : token ∉ A := by
          intro htoken
          rcases hA token htoken with hseen | hexpired
          · rw [hfresh] at hseen
            cases hseen
          · exact UInt64.not_lt.mpr (UInt64.le_trans hexpired hle) hexpires
        obtain ⟨a, -, ha⟩ :=
          verify_fresh token service required nowMs ⟨haudience, hbefore, hexpires⟩
        have htable : (v.step (.verify token service required nowMs)).2.seenNonces token.nonce =
            some token.expiresAtMs := by
          rw [step, ha v hfresh]
          exact update_self ..
        obtain ⟨hnodup, hout⟩ := ih (token :: A)
          (List.forall_mem_cons.mpr ⟨.inl htable, hA'⟩) hnow' hsorted.2
        refine ⟨List.nodup_cons.mpr ⟨fun hmem => hout token hmem List.mem_cons_self, hnodup⟩, ?_⟩
        intro t ht
        rcases List.mem_cons.mp ht with rfl | ht
        · exact hnew
        · exact fun hmem => hout t ht (List.mem_cons_of_mem _ hmem)
      · exact ih A hA' hnow' hsorted.2

theorem accepted_nodup (calls : List Call) (hsorted : (calls.map Call.nowMs).Pairwise (· ≤ ·)) :
    (new.accepted calls).Nodup :=
  (accepted_nodup_from calls [] nofun (fun _ _ => UInt64.zero_le) hsorted).1

/-! ## With and without the inserted calls -/

/-- Without the inserted calls the burnt nonces are not in the table. -/
structure Without (v v₀ : InMemoryVerifier) (B : Set String) : Prop where
  burnt : ∀ n ∈ B, v.seenNonces n ≠ none ∧ v₀.seenNonces n = none
  others : ∀ n ∉ B, v₀.seenNonces n = v.seenNonces n

theorem Without.inserted (h : Without v v₀ B) (token : CapabilityToken) (service required : String)
    (nowMs : UInt64) : Without (v.step (.verify token service required nowMs)).2 v₀
      (InMemoryVerifier.burnt v (v.step (.verify token service required nowMs)).2 true B) := by
  have hkeep := verify_keeps v token service required nowMs
  constructor
  · rintro n ⟨hseen, hB | ⟨-, hfresh⟩⟩
    · exact ⟨hseen, (h.burnt n hB).2⟩
    · have hB : n ∉ B := fun hB => (h.burnt n hB).1 hfresh
      exact ⟨hseen, (h.others n hB).trans hfresh⟩
  · intro n hn
    by_cases hfresh : v.seenNonces n = none
    · have hB : n ∉ B := fun hB => (h.burnt n hB).1 hfresh
      have hnone : (v.step (.verify token service required nowMs)).2.seenNonces n = none := by
        by_contra hseen
        exact hn ⟨hseen, .inr ⟨rfl, hfresh⟩⟩
      rw [h.others n hB, hfresh, hnone]
    · have hB : n ∉ B := fun hB => hn ⟨by rwa [hkeep n hfresh], .inl hB⟩
      rw [h.others n hB, hkeep n hfresh]

/-- A call whose nonce is not burnt has the same answer in both runs. -/
theorem Without.original (h : Without v v₀ B) (c : Call)
    (hclean : ∀ token service required nowMs, c = .verify token service required nowMs →
      Admitted token service nowMs → token.nonce ∉ B) :
    (v.step c).1 = (v₀.step c).1 ∧
      Without (v.step c).2 (v₀.step c).2 (InMemoryVerifier.burnt v (v.step c).2 false B) := by
  cases c with
  | purgeExpired nowMs =>
    refine ⟨rfl, fun n hn => ⟨hn.1, ?_⟩, fun n hn => ?_⟩
    · rcases hn.2 with hB | ⟨hfalse, -⟩
      · show (v₀.seenNonces n).filter _ = none
        rw [(h.burnt n hB).2, Option.filter_none]
      · cases hfalse
    · show (v₀.seenNonces n).filter _ = (v.seenNonces n).filter _
      by_cases hB : n ∈ B
      · have hnone : (v.step (.purgeExpired nowMs)).2.seenNonces n = none := by
          by_contra hseen
          exact hn ⟨hseen, .inl hB⟩
        rw [(h.burnt n hB).2, Option.filter_none]
        exact hnone.symm
      · rw [h.others n hB]
  | verify token service required nowMs =>
    -- A call that leaves the table as it is leaves the burnt nonces as they are.
    have hsame : Without v v₀ (InMemoryVerifier.burnt v v false B) := by
      have hB : InMemoryVerifier.burnt v v false B = B := by
        ext n
        refine ⟨fun hn => hn.2.resolve_right nofun, fun hn => ⟨(h.burnt n hn).1, .inl hn⟩⟩
      rwa [hB]
    by_cases hadmitted : Admitted token service nowMs
    · have hB := hclean token service required nowMs rfl hadmitted
      have htable := h.others _ hB
      by_cases hseen : v.seenNonces token.nonce = none
      · obtain ⟨a, -, ha⟩ := verify_fresh token service required nowMs hadmitted
        rw [step, step, ha v hseen, ha v₀ (htable.trans hseen)]
        refine ⟨rfl, fun n hn => ⟨hn.1, ?_⟩, fun n hn => ?_⟩
        · have hnB : n ∈ B := hn.2.resolve_right nofun
          have hne : n ≠ token.nonce := fun heq => hB (heq ▸ hnB)
          exact (update_of_ne hne _ _).trans (h.burnt n hnB).2
        · by_cases hne : n = token.nonce
          · subst hne
            show update v₀.seenNonces _ _ _ = update v.seenNonces _ _ _
            rw [update_self, update_self]
          · have hnB : n ∉ B := by
              refine fun hnB => hn ⟨?_, .inl hnB⟩
              show update v.seenNonces _ _ n ≠ none
              rw [update_of_ne hne]
              exact (h.burnt n hnB).1
            show update v₀.seenNonces _ _ n = update v.seenNonces _ _ n
            rw [update_of_ne hne, update_of_ne hne, h.others n hnB]
      · rw [step, step, verify_seen hadmitted hseen, verify_seen hadmitted (by rwa [htable])]
        exact ⟨rfl, hsame⟩
    · obtain ⟨e, he⟩ := verify_not_admitted required hadmitted
      rw [step, step, he, he]
      exact ⟨rfl, hsame⟩

theorem Without.differ (h : Without v v₀ B) (hadmitted : Admitted token service nowMs)
    (hB : token.nonce ∈ B) :
    (v.step (.verify token service required nowMs)).1 ≠
      (v₀.step (.verify token service required nowMs)).1 := by
  obtain ⟨hseen, hfresh⟩ := h.burnt _ hB
  obtain ⟨a, ha, hverify⟩ := verify_fresh token service required nowMs hadmitted
  rw [step, step, verify_seen hadmitted hseen, hverify v₀ hfresh]
  exact fun heq => ha (Option.some.inj heq).symm

theorem Without.kept_eq_iff {l : List Marked} (h : Without v v₀ B) (hfail : v.Failing l) :
    v.kept l = v₀.run (originals l) ↔ v.Clean B l := by
  induction l generalizing v v₀ B with
  | nil => exact ⟨fun _ => trivial, fun _ => rfl⟩
  | cons m l ih =>
    obtain ⟨inserted, c⟩ := m
    cases inserted with
    | true =>
      obtain ⟨token, service, required, nowMs, rfl, -⟩ := hfail.1 rfl
      exact (ih (h.inserted token service required nowMs) hfail.2).trans
        ⟨fun hl => ⟨nofun, hl⟩, And.right⟩
    | false =>
      show (v.step c).1 :: (v.step c).2.kept l = (v₀.step c).1 :: (v₀.step c).2.run (originals l) ↔
        _
      rw [List.cons_eq_cons]
      by_cases hclean : ∀ token service required nowMs, c = .verify token service required nowMs →
          Admitted token service nowMs → token.nonce ∉ B
      · obtain ⟨hanswer, hwithout⟩ := h.original c hclean
        rw [ih hwithout hfail.2]
        exact ⟨fun hl => ⟨fun _ => hclean, hl.2⟩, fun hl => ⟨hanswer, hl.2⟩⟩
      · refine iff_of_false (fun heq => hclean ?_) fun hl => hclean (hl.1 rfl)
        rintro token service required nowMs rfl hadmitted hB
        exact h.differ hadmitted hB heq.1

/-- The answers to the other calls are those of a run without the failing ones, exactly when no
other call comes with a nonce that a failing one has taken. -/
theorem unchanged_iff (l : List Marked) (hsorted : (l.map fun m => m.call.nowMs).Pairwise (· ≤ ·))
    (hfail : new.Failing l) :
    (new.accepted (l.map Marked.call)).Nodup ∧
      (new.kept l = new.run (originals l) ↔ new.Clean ∅ l) := by
  refine ⟨accepted_nodup _ (by rwa [List.map_map]), Without.kept_eq_iff ?_ hfail⟩
  exact ⟨nofun, fun _ _ => rfl⟩

end Runs

end InMemoryVerifier

namespace Demo

attribute [local instance] oneSignature

def genuine : CapabilityToken := ⟨narrow, .replicate 64 0⟩

/-- Another issuer, who has not signed it. -/
def forged : CapabilityToken := ⟨{ narrow with issuer := .replicate 32 8 }, .replicate 64 0⟩

/-- The forged token comes first and has the nonce of the genuine one. -/
def burning : List Marked :=
  [⟨true, .verify forged "service" "read,admin" 100⟩,
    ⟨false, .verify genuine "service" "read,admin" 200⟩]

theorem failing_burning : InMemoryVerifier.new.Failing burning :=
  ⟨fun _ => ⟨_, _, _, _, rfl, by decide +kernel⟩, nofun, trivial⟩

/-- A call that fails on its signature makes the genuine token a replay. -/
theorem genuine_refused : InMemoryVerifier.new.Failing burning ∧
    InMemoryVerifier.new.kept burning = [some (.error (.nonceReplay "nonce-1"))] ∧
    InMemoryVerifier.new.run (InMemoryVerifier.originals burning) = [some (.ok ())] :=
  ⟨failing_burning, by decide +kernel, by decide +kernel⟩

theorem unchanged_iff_burning : ¬ InMemoryVerifier.new.Clean ∅ burning := by
  have h := InMemoryVerifier.unchanged_iff burning (by decide) failing_burning
  rw [← h.2]
  decide +kernel

end Demo

end P2P333.Iam333
