import QuorumCrypt.Protocols.NonInteractive
import QuorumCrypt.Protocols.FrostSafety

/-!
# Which payloads an executor withstands

The executor unwraps what it cannot decode and returns what `update` returns, so most payloads that
the protocol has no use for end the run. For each protocol, here is the exact condition under which a
payload does no harm.
-/

namespace QuorumCrypt

open Rust

namespace Execution

variable {σ μ ρ : Type} (P : ThresholdRoundProtocol σ μ ρ) (rng : ℕ → ρ)
  (fromStr : String → Outcome Unit μ)

/-- A run over the payloads that arrive. -/
def runPayloads (protocol : σ) (payloads : List Bytes) : Execution σ μ :=
  payloads.foldl (onPayload P rng fromStr) (start P rng protocol)

/-- The run goes on, or it has ended with a result. -/
def Survives (e : Execution σ μ) : Prop :=
  e.status = .running ∨ ∃ result, e.status = .finished result

/-- What the executor should do with a payload: go on or finish, and after a payload that is no
message, or one that is of no use, go on with the protocol as it was. -/
def Withstands (Unusable : σ → μ → Prop) (e : Execution σ μ) (payload : Bytes) : Prop :=
  (onPayload P rng fromStr e payload).Survives
  ∧ ((∀ message, unwrapPayload fromStr payload = .ok message → Unusable e.protocol message) →
    (onPayload P rng fromStr e payload).status = .running
      ∧ (onPayload P rng fromStr e payload).protocol = e.protocol)

variable {P rng fromStr} {e : Execution σ μ}

/-- After the update the executor survives when the call it makes next returns `Ok`. -/
theorem survives_advance_iff (hrunning : e.status = .running) :
    (advance P rng e).Survives
      ↔ (P.isReadyToFinalize e.protocol = true → ∃ value, P.finalize e.protocol = .ok value)
        ∧ (P.isReadyToFinalize e.protocol = false → P.isReadyForNextRound e.protocol = true →
          ∃ value, P.doRound e.protocol (rng e.rounds) = .ok value) := by
  unfold advance Survives
  split
  · rename_i hready
    rcases performFinalize_cases P e with ⟨_, _, hcall, heq⟩ | ⟨_, hcall, heq⟩ | ⟨hcall, heq⟩ <;>
      rw [heq, hcall] <;> simp [hready]
  · rename_i hready
    rw [Bool.not_eq_true] at hready
    split
    · rename_i hnext
      rcases performRound_cases P rng e with ⟨_, _, hcall, heq⟩ | ⟨_, hcall, heq⟩ | ⟨hcall, heq⟩ <;>
        rw [heq, hcall] <;> simp [hready, hnext, hrunning]
    · rename_i hnext
      simp [hready, hnext, hrunning]

/-- After the update the executor leaves the protocol alone when nothing is due. A round is not idle:
it does not lead back to the state `protocol`. -/
theorem advance_idle_iff (hrunning : e.status = .running) {protocol : σ}
    (hround : ∀ d m s, P.isReadyForNextRound e.protocol = true →
      P.doRound e.protocol d = .ok (m, s) → s ≠ protocol) :
    ((advance P rng e).status = .running ∧ (advance P rng e).protocol = protocol)
      ↔ P.isReadyToFinalize e.protocol = false ∧ P.isReadyForNextRound e.protocol = false
        ∧ e.protocol = protocol := by
  unfold advance
  split
  · rename_i hready
    rcases performFinalize_cases P e with ⟨_, _, hcall, heq⟩ | ⟨_, hcall, heq⟩ | ⟨hcall, heq⟩ <;>
      rw [heq] <;> simp [hready]
  · rename_i hready
    rw [Bool.not_eq_true] at hready
    split
    · rename_i hnext
      rcases performRound_cases P rng e with ⟨m, s, hcall, heq⟩ | ⟨_, hcall, heq⟩ | ⟨hcall, heq⟩
      · have hne := hround _ m s hnext hcall
        rw [heq]
        simp [hnext, hne]
      · rw [heq]
        simp [hnext]
      · rw [heq]
        simp [hnext]
    · rename_i hnext
      simp [hready, hnext, hrunning]

/-- A payload is withstood exactly when it decodes, the update returns `Ok`, and so does the call that
comes next; a message of no use must change nothing and make nothing due. -/
theorem withstands_iff (hrunning : e.status = .running) {Unusable : σ → μ → Prop}
    (hround : ∀ s d m s', P.isReadyForNextRound s = true → P.doRound s d = .ok (m, s') →
      ∀ message, P.update e.protocol message = .ok s → s' ≠ e.protocol) (payload : Bytes) :
    Withstands P rng fromStr Unusable e payload
      ↔ ∃ message s, unwrapPayload fromStr payload = .ok message
        ∧ P.update e.protocol message = .ok s
        ∧ (P.isReadyToFinalize s = true → ∃ value, P.finalize s = .ok value)
        ∧ (P.isReadyToFinalize s = false → P.isReadyForNextRound s = true →
          ∃ value, P.doRound s (rng e.rounds) = .ok value)
        ∧ (Unusable e.protocol message →
          P.isReadyToFinalize s = false ∧ P.isReadyForNextRound s = false ∧ s = e.protocol) := by
  unfold Withstands
  rw [onPayload, if_neg (not_not.mpr hrunning)]
  cases hunwrap : unwrapPayload fromStr payload with
  | ok message =>
      simp only [Outcome.ok.injEq, forall_eq', exists_and_left, exists_eq_left']
      rcases onMessage_of_running P rng hrunning message with
        ⟨s, hupdate, heq⟩ | ⟨error, hupdate, heq⟩ | ⟨hupdate, heq⟩
      · have hrounds : (⟨s, e.sent, e.calls ++ [.update e.protocol message], .running⟩ :
            Execution σ μ).rounds = e.rounds := rounds_update _ _ _ _ _ _
        rw [heq, survives_advance_iff rfl, advance_idle_iff rfl fun d m s' hnext hcall =>
          hround s d m s' hnext hcall message hupdate, hrounds, hupdate]
        simp only [Outcome.ok.injEq, exists_eq_left', and_assoc]
      · rw [heq, hupdate]
        simp [Survives]
      · rw [heq, hupdate]
        simp [Survives]
  | err error => simp [Survives]
  | panic => simp [Survives]

/-- What holds after the first round and is kept by every turn, and by the panic on a payload that
does not decode, holds after every run over payloads. -/
theorem runPayloads_induction {motive : Execution σ μ → Prop} {protocol : σ}
    (hstart : motive (start P rng protocol))
    (hpanic : ∀ e, motive e → motive { e with status := .panicked })
    (hstep : ∀ e message, e.status = .running → motive e → motive (onMessage P rng e message))
    (payloads : List Bytes) : motive (runPayloads P rng fromStr protocol payloads) := by
  induction payloads using List.reverseRecOn with
  | nil => exact hstart
  | append_singleton payloads payload ih =>
      rw [runPayloads, List.foldl_append]
      change motive (onPayload P rng fromStr (runPayloads P rng fromStr protocol payloads) payload)
      rw [onPayload]
      split
      · exact ih
      · rename_i hrunning
        split
        · exact hstep _ _ (not_not.mp hrunning) ih
        · exact hpanic _ ih

/-- A run that stops in its first round takes no payloads. -/
theorem runPayloads_of_stopped {protocol : σ} (h : (start P rng protocol).status ≠ .running)
    (payloads : List Bytes) :
    runPayloads P rng fromStr protocol payloads = start P rng protocol := by
  unfold runPayloads
  induction payloads with
  | nil => rfl
  | cons payload payloads ih => rw [List.foldl_cons, onPayload, if_pos h, ih]

/-- When every payload of a run is withstood, the run survives. -/
theorem survives_runPayloads {Unusable : σ → μ → Prop} {protocol : σ} {payloads : List Bytes}
    (hstart : (start P rng protocol).status = .running)
    (h : ∀ past payload, past ++ [payload] <+: payloads →
      (runPayloads P rng fromStr protocol past).status = .running →
      Withstands P rng fromStr Unusable (runPayloads P rng fromStr protocol past) payload) :
    (runPayloads P rng fromStr protocol payloads).Survives := by
  induction payloads using List.reverseRecOn with
  | nil => exact .inl hstart
  | append_singleton payloads payload ih =>
      have hpast := ih fun past p hp => h past p (hp.trans (List.prefix_append _ _))
      have hstep : runPayloads P rng fromStr protocol (payloads ++ [payload])
          = onPayload P rng fromStr (runPayloads P rng fromStr protocol payloads) payload := by
        rw [runPayloads, List.foldl_append]
        rfl
      by_cases hrunning : (runPayloads P rng fromStr protocol payloads).status = .running
      · rw [hstep]
        exact (h payloads payload (List.prefix_refl _) hrunning).1
      · rw [hstep, onPayload, if_pos hrunning]
        exact hpast

variable (P rng fromStr) in
/-- In every state of every run, exactly the welcome payloads are withstood, and a run with no others
survives. -/
def WithstandsExactly (Unusable : σ → μ → Prop) (Welcome : σ → Bytes → Prop) (protocol : σ) : Prop :=
  (∀ past payload, (runPayloads P rng fromStr protocol past).status = .running →
    (Withstands P rng fromStr Unusable (runPayloads P rng fromStr protocol past) payload
      ↔ Welcome (runPayloads P rng fromStr protocol past).protocol payload))
  ∧ ∀ payloads, (start P rng protocol).status = .running →
    (∀ past payload, past ++ [payload] <+: payloads →
      (runPayloads P rng fromStr protocol past).status = .running →
      Welcome (runPayloads P rng fromStr protocol past).protocol payload) →
    (runPayloads P rng fromStr protocol payloads).Survives

theorem WithstandsExactly.of_iff {Unusable : σ → μ → Prop} {Welcome : σ → Bytes → Prop} {protocol : σ}
    (h : ∀ past payload, (runPayloads P rng fromStr protocol past).status = .running →
      (Withstands P rng fromStr Unusable (runPayloads P rng fromStr protocol past) payload
        ↔ Welcome (runPayloads P rng fromStr protocol past).protocol payload)) :
    WithstandsExactly P rng fromStr Unusable Welcome protocol := by
  refine ⟨h, fun payloads hstart hwelcome => ?_⟩
  exact survives_runPayloads hstart fun past payload hpast hrunning =>
    (h past payload hrunning).mpr (hwelcome past payload hpast hrunning)

end Execution

/-! ### Protocols of one round -/

namespace ShareRound

variable {S : Type} (P : ShareRound S) (fromStr : String → Outcome Unit (ShareMessage S))

/-- A message of no use: the default one, and a share that `verify_share` does not accept. -/
def Unusable (_ : ShareState S) : ShareMessage S → Prop
  | .share share => P.verifyShare share ≠ .ok true
  | .default => True

/-- A payload that does no harm is a share. When its id was seen before, it is accepted and the shares
held can be assembled, or there are still too few of them. When it is new, it is accepted, and if it
is the last one that was missing, the shares can be assembled. -/
def Welcome (state : ShareState S) (payload : Bytes) : Prop :=
  ∃ share, unwrapPayload fromStr payload = .ok (.share share)
    ∧ if P.getId share ∈ state.receivedShareIds then
        P.threshold.toNat ≤ state.validShares.length →
          P.verifyShare share = .ok true ∧ ∃ result, P.assemble state.validShares = .ok result
      else P.verifyShare share = .ok true
        ∧ (P.threshold.toNat ≤ state.validShares.length + 1 →
          ∃ result, P.assemble (state.validShares ++ [share]) = .ok result)

variable {P fromStr}

theorem RunInv.panicked {own : S} {e : Execution (ShareState S) (ShareMessage S)} (h : RunInv P own e) :
    RunInv P own { e with status := .panicked } :=
  ⟨h.collected, by simp, h.rounds, h.sent, h.finalized, h.threshold, by simp⟩

/-- A protocol that runs has not finished. -/
theorem finished_runPayloads {rng : ℕ → Drawn} (payloads : List Bytes)
    (h : (Execution.runPayloads P.protocol rng fromStr (ShareState.new S) payloads).status = .running) :
    (Execution.runPayloads P.protocol rng fromStr (ShareState.new S) payloads).protocol.finished
      = false := by
  by_cases hown : ∃ own, P.ownShare (rng 0) = .ok own
  · obtain ⟨own, hown⟩ := hown
    have hinv : RunInv P own
        (Execution.runPayloads P.protocol rng fromStr (ShareState.new S) payloads) :=
      Execution.runPayloads_induction (runInv_start hown) (fun _ hinv => hinv.panicked)
        (fun _ message hrunning hinv => hinv.onMessage hrunning message) payloads
    exact (hinv.running h).1
  · obtain ⟨status, hstopped, -, heq⟩ := run_of_ownShare_ne (not_exists.mp hown) []
    have hstart : (Execution.start P.protocol rng (ShareState.new S)).status ≠ .running := by
      change (P.run rng []).status ≠ .running
      rw [heq]
      exact hstopped
    rw [Execution.runPayloads_of_stopped hstart] at h
    exact absurd h hstart

theorem exists_assemble_of_finalize {state : ShareState S}
    (h : ∃ value, P.protocol.finalize state = .ok value) :
    ∃ result, P.assemble state.validShares = .ok result := by
  obtain ⟨value, hvalue⟩ := h
  obtain ⟨result, hresult, -⟩ := Outcome.bind_eq_ok.mp hvalue
  exact ⟨result, hresult⟩

theorem exists_finalize_of_assemble {state : ShareState S}
    (h : ∃ result, P.assemble state.validShares = .ok result) :
    ∃ value, P.protocol.finalize state = .ok value := by
  obtain ⟨result, hresult⟩ := h
  exact ⟨_, Outcome.bind_eq_ok.mpr ⟨result, hresult, rfl⟩⟩

/-- A round adds a share, so it does not lead back. -/
theorem ne_of_doRound {state s s' : ShareState S} {message m : ShareMessage S} {d : Drawn}
    (hfinished : state.finished = false) (hupdate : P.protocol.update state message = .ok s)
    (hround : P.protocol.doRound s d = .ok (m, s')) : s' ≠ state := by
  have hlength : state.validShares.length ≤ s.validShares.length := by
    obtain ⟨share, -, ⟨-, rfl⟩ | ⟨-, -, rfl⟩ | ⟨-, -, rfl⟩⟩ := update_eq_ok hfinished hupdate
    · exact le_rfl
    · exact le_rfl
    · simp
  obtain ⟨own, -, heq⟩ := Outcome.bind_eq_ok.mp hround
  obtain ⟨-, rfl⟩ := Prod.mk.inj (Outcome.ok.inj heq)
  rintro rfl
  rw [List.length_append, List.length_singleton] at hlength
  omega

/-- In every state of every run, a payload is withstood exactly when it is welcome. -/
theorem withstands_iff_welcome (rng : ℕ → Drawn) (past : List Bytes) (payload : Bytes)
    (h : (Execution.runPayloads P.protocol rng fromStr (ShareState.new S) past).status = .running) :
    Execution.Withstands P.protocol rng fromStr P.Unusable
        (Execution.runPayloads P.protocol rng fromStr (ShareState.new S) past) payload
      ↔ P.Welcome fromStr
        (Execution.runPayloads P.protocol rng fromStr (ShareState.new S) past).protocol payload := by
  have hfinished := finished_runPayloads past h
  generalize Execution.runPayloads P.protocol rng fromStr (ShareState.new S) past = e at h hfinished ⊢
  rw [Execution.withstands_iff h fun s d m s' _ hcall message hupdate =>
    ne_of_doRound hfinished hupdate hcall]
  constructor
  · rintro ⟨message, s, hunwrap, hupdate, hfinalize, -, hunusable⟩
    obtain ⟨share, rfl, hcases⟩ := update_eq_ok hfinished hupdate
    refine ⟨share, hunwrap, ?_⟩
    rcases hcases with ⟨hid, rfl⟩ | ⟨hid, hreject, rfl⟩ | ⟨hid, haccept, rfl⟩
    · rw [if_pos hid]
      intro hthreshold
      have hready : P.protocol.isReadyToFinalize e.protocol = true := decide_eq_true hthreshold
      refine ⟨not_not.mp fun hreject => ?_, exists_assemble_of_finalize (hfinalize hready)⟩
      exact absurd hready (by simp [(hunusable hreject).1])
    · -- the id of the refused share stays noted
      have hsame := congrArg ShareState.receivedShareIds (hunusable hreject).2.2
      exact absurd (hsame ▸ Finset.mem_insert_self _ _) hid
    · rw [if_neg hid]
      refine ⟨haccept, fun hthreshold => exists_assemble_of_finalize (hfinalize ?_)⟩
      exact decide_eq_true (by simpa using hthreshold)
  · rintro ⟨share, hunwrap, hshare⟩
    by_cases hid : P.getId share ∈ e.protocol.receivedShareIds
    · rw [if_pos hid] at hshare
      refine ⟨.share share, e.protocol, hunwrap, ?_, fun hready => ?_, fun hready hnext => ?_,
        fun hreject => ?_⟩
      · change P.update e.protocol (.share share) = _
        simp [update, hfinished, hid]
      · exact exists_finalize_of_assemble (hshare (of_decide_eq_true hready)).2
      · exact absurd (hready.symm.trans hnext) (by simp)
      · have hfew : ¬ P.threshold.toNat ≤ e.protocol.validShares.length := fun hthreshold =>
          hreject (hshare hthreshold).1
        exact ⟨decide_eq_false hfew, decide_eq_false hfew, rfl⟩
    · rw [if_neg hid] at hshare
      obtain ⟨haccept, hassemble⟩ := hshare
      have hupdate : P.protocol.update e.protocol (.share share) = .ok { e.protocol with
          receivedShareIds := insert (P.getId share) e.protocol.receivedShareIds
          validShares := e.protocol.validShares ++ [share] } := by
        change P.update e.protocol (.share share) = _
        simp only [update, hfinished, Bool.false_eq_true, if_false, if_neg hid, haccept]
      refine ⟨.share share, _, hunwrap, hupdate, fun hready => ?_, fun hready hnext => ?_,
        fun hreject => absurd haccept hreject⟩
      · exact exists_finalize_of_assemble (hassemble (by simpa using of_decide_eq_true hready))
      · exact absurd (hready.symm.trans hnext) (by simp)

end ShareRound

end QuorumCrypt
