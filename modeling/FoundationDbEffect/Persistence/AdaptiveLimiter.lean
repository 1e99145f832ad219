import Mathlib.Algebra.Order.Floor.Ring
import Mathlib.Data.List.Induction
import Mathlib.Data.Rat.Floor
import Mathlib.Tactic.Linarith

/-!
# The adaptive limiter

A rejected request sends its key into a cooldown.  The first request after that begins to learn:
tokens are counted until the next rejection, which tells how many were accepted in which window.
From then on requests are paced by that limit, until they are rejected again.  An epoch counts the
steps forward, so that late feedback on earlier requests is told from feedback that matters.

Times are exact and tokens are counted in integers; rows hold the state itself.
-/

namespace FoundationDbEffect.Persistence

inductive AdaptivePhase where
  | inactive
  | cooldown
  | learning
  | learned
  deriving DecidableEq, Repr

structure AdaptiveState where
  phase : AdaptivePhase
  epoch : ℚ
  cooldownUntil : ℚ
  learningStartedAt : ℚ
  observedTokens : ℤ
  learnedLimit : ℤ
  learnedWindowMillis : ℚ
  expiresAt : ℚ
  deriving DecidableEq, Repr

structure AdaptiveConsumeOptions where
  tokens : ℤ
  fallbackWindow : ℚ
  deriving DecidableEq, Repr

structure AdaptiveConsumeResult where
  delay : ℚ
  epoch : ℚ
  phase : AdaptivePhase
  deriving DecidableEq, Repr

structure AdaptiveFeedbackOptions where
  tokens : ℤ
  epoch : ℚ
  status : ℕ
  retryAfter : Option ℚ
  deriving DecidableEq, Repr

def adaptiveStateTtlGraceMillis : ℚ := 60000

def adaptiveStateMaxWindowMillis : ℚ := 60 * 60 * 1000

def clampAdaptiveDurationMillis (milliseconds : ℚ) : ℚ :=
  if milliseconds ≤ 0 then 1 else min milliseconds adaptiveStateMaxWindowMillis

def cooldownExpiresAt (cooldownUntil : ℚ) : ℚ := cooldownUntil + adaptiveStateTtlGraceMillis

def learningExpiresAt (now fallbackWindow : ℚ) : ℚ :=
  now + fallbackWindow + adaptiveStateTtlGraceMillis

def learnedExpiresAt (now learnedWindowMillis : ℚ) : ℚ :=
  now + learnedWindowMillis + adaptiveStateTtlGraceMillis

namespace AdaptiveState

def unexpired (stored : Option AdaptiveState) (now : ℚ) : Option AdaptiveState :=
  match stored with
  | none => none
  | some state => if state.expiresAt ≤ now then none else some state

def refillRateMillis (state : AdaptiveState) : ℚ := state.learnedWindowMillis / state.learnedLimit

/-- The state of a paced key after a request, and the delay of the request. -/
def pace (state : AdaptiveState) (tokens : ℤ) (now : ℚ) : ℚ × AdaptiveState :=
  let observedTokens := if state.cooldownUntil ≤ now then tokens else state.observedTokens + tokens
  let cooldownUntil := (if state.cooldownUntil ≤ now then now else state.cooldownUntil) +
    state.refillRateMillis * tokens
  let ttl := cooldownUntil - now
  let ttlTotal := observedTokens * state.refillRateMillis
  let elapsed := ttlTotal - ttl
  let windowNumber := ⌊(observedTokens - 1 : ℚ) / state.learnedLimit⌋
  let remaining := windowNumber * state.learnedWindowMillis - elapsed
  (if remaining ≤ 0 then 0 else remaining, { state with observedTokens, cooldownUntil })

/-- The state of a key whose request was rejected while nothing is known of its limit. -/
def cooling (epoch cooldownUntil : ℚ) : AdaptiveState where
  phase := .cooldown
  epoch := epoch
  cooldownUntil := cooldownUntil
  learningStartedAt := 0
  observedTokens := 0
  learnedLimit := 0
  learnedWindowMillis := 0
  expiresAt := cooldownExpiresAt cooldownUntil

end AdaptiveState

/-- A call on the row of its key: the result, and the row that it leaves. -/
def adaptiveConsume (stored : Option AdaptiveState) (options : AdaptiveConsumeOptions) (now : ℚ) :
    AdaptiveConsumeResult × Option AdaptiveState :=
  match AdaptiveState.unexpired stored now with
  | none => ({ delay := 0, epoch := 0, phase := .inactive }, none)
  | some state =>
    match state.phase with
    | .cooldown =>
      if state.cooldownUntil > now then
        ({ delay := state.cooldownUntil - now, epoch := state.epoch, phase := .cooldown },
          some state)
      else
        let state : AdaptiveState :=
          { state with
            phase := .learning
            epoch := state.epoch + 1
            learningStartedAt := now
            observedTokens := options.tokens
            expiresAt := learningExpiresAt now options.fallbackWindow }
        ({ delay := 0, epoch := state.epoch, phase := state.phase }, some state)
    | .learning =>
      let state := { state with observedTokens := state.observedTokens + options.tokens }
      ({ delay := 0, epoch := state.epoch, phase := state.phase }, some state)
    | .learned =>
      let (delay, state) := state.pace options.tokens now
      ({ delay, epoch := state.epoch, phase := state.phase }, some state)
    | .inactive => ({ delay := 0, epoch := state.epoch, phase := state.phase }, some state)

/-- The row that feedback on a request leaves. Only a rejection that says when to retry counts. -/
def adaptiveFeedback (stored : Option AdaptiveState) (options : AdaptiveFeedbackOptions)
    (now : ℚ) : Option AdaptiveState :=
  match options.retryAfter with
  | none => stored
  | some retryAfter =>
    if options.status ≠ 429 then stored
    else
      let retryAfterMillis := clampAdaptiveDurationMillis retryAfter
      let cooldownUntil := now + retryAfterMillis
      match AdaptiveState.unexpired stored now with
      | none => if options.epoch ≠ 0 then none else some (.cooling 0 cooldownUntil)
      | some state =>
        if state.epoch ≠ options.epoch then some state
        else
          match state.phase with
          | .cooldown =>
            let nextCooldown := max state.cooldownUntil cooldownUntil
            some
              { state with
                cooldownUntil := nextCooldown
                expiresAt := cooldownExpiresAt nextCooldown }
          | .learning =>
            let acceptedTokens := state.observedTokens - options.tokens
            if acceptedTokens ≤ 0 then some (.cooling state.epoch cooldownUntil)
            else
              let learnedWindowMillis :=
                clampAdaptiveDurationMillis (now - state.learningStartedAt + retryAfterMillis)
              some
                { phase := .learned
                  epoch := state.epoch + 1
                  cooldownUntil := state.learningStartedAt + learnedWindowMillis
                  learningStartedAt := state.learningStartedAt
                  observedTokens := acceptedTokens
                  learnedLimit := acceptedTokens
                  learnedWindowMillis
                  expiresAt := learnedExpiresAt now learnedWindowMillis }
          | .learned => some (.cooling state.epoch cooldownUntil)
          | .inactive => some state

/-! ## One call -/

theorem clampAdaptiveDurationMillis_pos (milliseconds : ℚ) :
    0 < clampAdaptiveDurationMillis milliseconds := by
  rw [clampAdaptiveDurationMillis]
  split
  · exact one_pos
  · next hpos =>
    exact lt_min (not_le.mp hpos) (by norm_num [adaptiveStateMaxWindowMillis])

section

variable {stored : Option AdaptiveState} {state : AdaptiveState} {now : ℚ}

theorem AdaptiveState.unexpired_some (h : now < state.expiresAt) :
    unexpired (some state) now = some state :=
  if_neg h.not_ge

end

inductive AdaptiveCall where
  | consume (now : ℚ) (options : AdaptiveConsumeOptions)
  | feedback (now : ℚ) (options : AdaptiveFeedbackOptions)
  deriving DecidableEq, Repr

namespace AdaptiveCall

def now : AdaptiveCall → ℚ
  | consume now _ => now
  | feedback now _ => now

def run (stored : Option AdaptiveState) : AdaptiveCall → Option AdaptiveState
  | consume now options => (adaptiveConsume stored options now).2
  | feedback now options => adaptiveFeedback stored options now

def rowAfter (stored : Option AdaptiveState) (calls : List AdaptiveCall) : Option AdaptiveState :=
  calls.foldl run stored

/-- Feedback that is no rejection, or does not say when to retry, does not look at the row. -/
def Reads : AdaptiveCall → Prop
  | consume _ _ => True
  | feedback _ options => options.status = 429 ∧ options.retryAfter.isSome

def Drops (stored : Option AdaptiveState) (call : AdaptiveCall) : Prop :=
  call.Reads ∧ ∃ state, stored = some state ∧ state.expiresAt ≤ call.now

/-! ## Transitions -/

/-- What a call may do to a state that it does not drop. -/
inductive Changes (call : AdaptiveCall) : AdaptiveState → AdaptiveState → Prop where
  | stay (state : AdaptiveState) : Changes call state state
  | extend {state : AdaptiveState} (cooldownUntil : ℚ) (h : state.phase = .cooldown) :
      Changes call state
        { state with cooldownUntil, expiresAt := cooldownExpiresAt cooldownUntil }
  | learn {state : AdaptiveState} (tokens : ℤ) (expiresAt : ℚ) (h : state.phase = .cooldown) :
      Changes call state
        { state with
          phase := .learning
          epoch := state.epoch + 1
          learningStartedAt := call.now
          observedTokens := tokens
          expiresAt }
  | observe {state : AdaptiveState} (tokens : ℤ) (h : state.phase = .learning) :
      Changes call state { state with observedTokens := state.observedTokens + tokens }
  | settle {state : AdaptiveState} {now : ℚ} {options : AdaptiveFeedbackOptions}
      (hcall : call = .feedback now options) (h : state.phase = .learning)
      (htokens : options.tokens < state.observedTokens) {window : ℚ} (hwindow : 0 < window) :
      Changes call state
        { phase := .learned
          epoch := state.epoch + 1
          cooldownUntil := state.learningStartedAt + window
          learningStartedAt := state.learningStartedAt
          observedTokens := state.observedTokens - options.tokens
          learnedLimit := state.observedTokens - options.tokens
          learnedWindowMillis := window
          expiresAt := learnedExpiresAt now window }
  | pace {state : AdaptiveState} (tokens : ℤ) (h : state.phase = .learned) :
      Changes call state (state.pace tokens call.now).2
  | cool {state : AdaptiveState} (cooldownUntil : ℚ)
      (h : state.phase = .learning ∨ state.phase = .learned) :
      Changes call state (.cooling state.epoch cooldownUntil)

variable {call : AdaptiveCall} {stored : Option AdaptiveState} {state next : AdaptiveState}

theorem changes_consume {now : ℚ} {options : AdaptiveConsumeOptions} (h : now < state.expiresAt) :
    ∃ next, run (some state) (.consume now options) = some next ∧
      Changes (.consume now options) state next := by
  simp only [run, adaptiveConsume, AdaptiveState.unexpired_some h]
  cases hphase : state.phase with
  | cooldown =>
    dsimp only
    split
    · exact ⟨state, rfl, .stay state⟩
    · exact ⟨_, rfl, .learn options.tokens _ hphase⟩
  | learning => exact ⟨_, rfl, hphase ▸ .observe options.tokens hphase⟩
  | learned => exact ⟨_, rfl, .pace options.tokens hphase⟩
  | inactive => exact ⟨state, rfl, .stay state⟩

theorem changes_feedback {now : ℚ} {options : AdaptiveFeedbackOptions}
    (h : now < state.expiresAt) :
    ∃ next, run (some state) (.feedback now options) = some next ∧
      Changes (.feedback now options) state next := by
  simp only [run, adaptiveFeedback, AdaptiveState.unexpired_some h]
  cases options.retryAfter with
  | none => exact ⟨state, rfl, .stay state⟩
  | some retryAfter =>
    dsimp only
    split
    · exact ⟨state, rfl, .stay state⟩
    · split
      · exact ⟨state, rfl, .stay state⟩
      · cases hphase : state.phase with
        | cooldown => exact ⟨_, rfl, hphase ▸ .extend _ hphase⟩
        | learning =>
          dsimp only
          split
          · exact ⟨_, rfl, .cool _ (.inl hphase)⟩
          · next haccepted =>
            exact ⟨_, rfl, .settle rfl hphase (sub_pos.mp (not_le.mp haccepted))
              (clampAdaptiveDurationMillis_pos _)⟩
        | learned => exact ⟨_, rfl, .cool _ (.inr hphase)⟩
        | inactive => exact ⟨state, rfl, .stay state⟩

theorem run_of_not_reads (h : ¬ call.Reads) : call.run stored = stored := by
  cases call with
  | consume now options => exact absurd trivial h
  | feedback now options =>
    rw [run, adaptiveFeedback]
    cases hretry : options.retryAfter with
    | none => rfl
    | some retryAfter => exact if_pos fun hstatus => h ⟨hstatus, by simp [hretry]⟩

theorem changes_of_kept (h : ¬ call.Drops (some state)) :
    ∃ next, call.run (some state) = some next ∧ Changes call state next := by
  by_cases hreads : call.Reads
  · have hlive : call.now < state.expiresAt :=
      not_le.mp fun hexpired => h ⟨hreads, state, rfl, hexpired⟩
    cases call with
    | consume now options => exact changes_consume hlive
    | feedback now options => exact changes_feedback hlive
  · exact ⟨state, run_of_not_reads hreads, .stay state⟩

/-- Without a state a call leaves none, or a key that is cooling down for the first time. -/
theorem run_of_no_state (hstored : AdaptiveState.unexpired stored call.now = none)
    (hreads : call.Reads) :
    call.run stored = none ∨ ∃ cooldownUntil, call.run stored = some (.cooling 0 cooldownUntil) := by
  cases call with
  | consume now options =>
    rw [AdaptiveCall.now] at hstored
    simp [run, adaptiveConsume, hstored]
  | feedback now options =>
    obtain ⟨hstatus, hretry⟩ := hreads
    obtain ⟨retryAfter, hretry⟩ := Option.isSome_iff_exists.mp hretry
    rw [AdaptiveCall.now] at hstored
    simp only [run, adaptiveFeedback, hretry, hstatus, hstored, ne_eq, not_true_eq_false, if_false]
    split
    · exact .inl rfl
    · exact .inr ⟨_, rfl⟩

/-! ## The state machine -/

def Advances (before after : AdaptivePhase) : Prop :=
  before = .cooldown ∧ after = .learning ∨ before = .learning ∧ after = .learned

instance (before after : AdaptivePhase) : Decidable (Advances before after) :=
  inferInstanceAs (Decidable (_ ∨ _))

structure ValidState (state : AdaptiveState) : Prop where
  phase : state.phase = .cooldown ∨ state.phase = .learning ∨ state.phase = .learned
  refills : state.phase = .learned → 0 < state.learnedLimit ∧ 0 < state.learnedWindowMillis

theorem validState_cooling (epoch cooldownUntil : ℚ) :
    ValidState (.cooling epoch cooldownUntil) :=
  ⟨.inl rfl, fun h => nomatch h⟩

theorem Changes.validState (h : Changes call state next) (hstate : ValidState state) :
    ValidState next := by
  cases h with
  | stay => exact hstate
  | extend cooldownUntil hphase => exact ⟨hstate.phase, hstate.refills⟩
  | learn tokens expiresAt hphase => exact ⟨.inr (.inl rfl), fun h => nomatch h⟩
  | observe tokens hphase => exact ⟨hstate.phase, hstate.refills⟩
  | settle hcall hphase htokens hwindow =>
    exact ⟨.inr (.inr rfl), fun _ => ⟨sub_pos.mpr htokens, hwindow⟩⟩
  | pace tokens hphase => exact ⟨hstate.phase, hstate.refills⟩
  | cool cooldownUntil hphase => exact validState_cooling _ _

theorem Changes.epoch (h : Changes call state next) :
    next.epoch = if Advances state.phase next.phase then state.epoch + 1 else state.epoch := by
  cases h with
  | stay => cases state.phase <;> simp [Advances]
  | extend cooldownUntil hphase => simp [Advances, hphase]
  | learn tokens expiresAt hphase => simp [Advances, hphase]
  | observe tokens hphase => simp [Advances, hphase]
  | settle hcall hphase htokens hwindow => simp [Advances, hphase]
  | pace tokens hphase => simp [Advances, AdaptiveState.pace, hphase]
  | cool cooldownUntil hphase => simp [Advances, AdaptiveState.cooling]

theorem Changes.epoch_le (h : Changes call state next) : state.epoch ≤ next.epoch := by
  rw [h.epoch]
  split
  · linarith
  · exact le_rfl

theorem Changes.learned (h : Changes call state next) (hnext : next.phase = .learned) :
    state.phase = .learned ∨ state.phase = .learning ∧
      ∃ now options, call = .feedback now options ∧ options.tokens < state.observedTokens := by
  cases h with
  | stay => exact .inl hnext
  | extend cooldownUntil hphase => exact .inl hnext
  | learn tokens expiresAt hphase => exact nomatch hnext
  | observe tokens hphase => exact .inl hnext
  | settle hcall hphase htokens hwindow => exact .inr ⟨hphase, _, _, hcall, htokens⟩
  | pace tokens hphase => exact .inl hphase
  | cool cooldownUntil hphase => exact nomatch hnext

theorem rowAfter_snoc (calls : List AdaptiveCall) (call : AdaptiveCall) :
    rowAfter stored (calls ++ [call]) = call.run (rowAfter stored calls) := by
  simp [rowAfter]

theorem rowAfter_append (calls more : List AdaptiveCall) :
    rowAfter stored (calls ++ more) = rowAfter (rowAfter stored calls) more :=
  List.foldl_append

/-- A call keeps a state by a transition, or starts anew. -/
theorem run_cases (call : AdaptiveCall) (stored : Option AdaptiveState) :
    (∃ state next, stored = some state ∧ call.run stored = some next ∧ Changes call state next) ∨
      call.run stored = none ∨
        ∃ cooldownUntil, call.run stored = some (.cooling 0 cooldownUntil) := by
  by_cases hkept : ∃ state, stored = some state ∧ ¬ call.Drops stored
  · obtain ⟨state, rfl, hkept⟩ := hkept
    obtain ⟨next, hnext, hchanges⟩ := changes_of_kept hkept
    exact .inl ⟨state, next, rfl, hnext, hchanges⟩
  · right
    cases stored with
    | none =>
      by_cases hreads : call.Reads
      · exact run_of_no_state rfl hreads
      · exact .inl (run_of_not_reads hreads)
    | some state =>
      have hdrops : call.Drops (some state) := by
        by_contra hdrops
        exact hkept ⟨state, rfl, hdrops⟩
      obtain ⟨hreads, expired, heq, hexpired⟩ := hdrops
      cases heq
      exact run_of_no_state (if_pos hexpired) hreads

theorem validState_rowAfter (calls : List AdaptiveCall) :
    ∀ state, rowAfter none calls = some state → ValidState state := by
  induction calls using List.reverseRecOn with
  | nil => exact fun _ h => nomatch h
  | append_singleton calls call ih =>
    intro next hnext
    rw [rowAfter_snoc] at hnext
    rcases run_cases call (rowAfter none calls) with
      ⟨state, _, hstate, hrun, hchanges⟩ | hnone | ⟨cooldownUntil, hcooling⟩
    · cases hrun.symm.trans hnext
      exact hchanges.validState (ih state hstate)
    · exact nomatch hnone.symm.trans hnext
    · cases hcooling.symm.trans hnext
      exact validState_cooling _ _

theorem epoch_le_rowAfter {calls : List AdaptiveCall}
    (hkept : ∀ before call after, calls = before ++ call :: after →
      ¬ call.Drops (rowAfter (some state) before)) :
    ∃ next, rowAfter (some state) calls = some next ∧ state.epoch ≤ next.epoch := by
  induction calls using List.reverseRecOn with
  | nil => exact ⟨state, rfl, le_rfl⟩
  | append_singleton calls call ih =>
    obtain ⟨middle, hmiddle, hle⟩ := ih fun before call' after heq =>
      hkept before call' (after ++ [call]) (by simp [heq])
    have hcall := hkept calls call [] rfl
    rw [hmiddle] at hcall
    obtain ⟨next, hnext, hchanges⟩ := changes_of_kept hcall
    rw [rowAfter_snoc, hmiddle]
    exact ⟨next, hnext, hle.trans hchanges.epoch_le⟩

end AdaptiveCall

open AdaptiveCall

structure AdaptiveStateMachine (calls : List AdaptiveCall) : Prop where
  valid : ∀ earlier later, calls = earlier ++ later → ∀ state,
    rowAfter none earlier = some state → ValidState state
  epoch : ∀ earlier call later, calls = earlier ++ call :: later → ∀ state,
    rowAfter none earlier = some state → ¬ call.Drops (some state) → ∃ next,
      rowAfter none (earlier ++ [call]) = some next ∧
        next.epoch = if Advances state.phase next.phase then state.epoch + 1 else state.epoch
  monotone : ∀ earlier between later, calls = earlier ++ between ++ later → ∀ state,
    rowAfter none earlier = some state →
      (∀ before call after, between = before ++ call :: after →
        ¬ call.Drops (rowAfter none (earlier ++ before))) → ∃ next,
          rowAfter none (earlier ++ between) = some next ∧ state.epoch ≤ next.epoch
  stale : ∀ earlier now options later, calls = earlier ++ .feedback now options :: later →
    ∀ state, rowAfter none earlier = some state → now < state.expiresAt →
      options.epoch ≠ state.epoch ∨ options.status ≠ 429 →
        rowAfter none (earlier ++ [.feedback now options]) = some state
  learned : ∀ earlier call later, calls = earlier ++ call :: later → ∀ next,
    rowAfter none (earlier ++ [call]) = some next → next.phase = .learned → ∃ state,
      rowAfter none earlier = some state ∧ (state.phase = .learned ∨ state.phase = .learning ∧
        ∃ now options, call = .feedback now options ∧ options.tokens < state.observedTokens)

theorem adaptiveFeedback_stale {state : AdaptiveState} {now : ℚ}
    {options : AdaptiveFeedbackOptions} (h : now < state.expiresAt)
    (hstale : options.epoch ≠ state.epoch ∨ options.status ≠ 429) :
    adaptiveFeedback (some state) options now = some state := by
  rw [adaptiveFeedback]
  cases options.retryAfter with
  | none => rfl
  | some retryAfter =>
    rw [AdaptiveState.unexpired_some h]
    dsimp only
    split
    · rfl
    · next hstatus =>
      exact if_pos (hstale.resolve_right hstatus).symm

/-- Whatever the calls on a key, in whatever order of their times, its states keep to the
transitions. -/
theorem adaptive_stateMachine (calls : List AdaptiveCall) : AdaptiveStateMachine calls where
  valid earlier _ _ := validState_rowAfter earlier
  epoch earlier call _ _ state hstate hkept := by
    obtain ⟨next, hnext, hchanges⟩ := changes_of_kept hkept
    exact ⟨next, by rw [rowAfter_snoc, hstate, hnext], hchanges.epoch⟩
  monotone earlier between _ _ state hstate hkept := by
    rw [rowAfter_append, hstate]
    refine epoch_le_rowAfter fun before call after heq => ?_
    have hcall := hkept before call after heq
    rwa [rowAfter_append, hstate] at hcall
  stale earlier now options _ _ state hstate hlive hstale := by
    rw [rowAfter_snoc, hstate]
    exact adaptiveFeedback_stale hlive hstale
  learned earlier call _ _ next hnext hphase := by
    rw [rowAfter_snoc] at hnext
    rcases run_cases call (rowAfter none earlier) with
      ⟨state, _, hstate, hrun, hchanges⟩ | hnone | ⟨cooldownUntil, hcooling⟩
    · cases hrun.symm.trans hnext
      exact ⟨state, hstate, hchanges.learned hphase⟩
    · exact nomatch hnone.symm.trans hnext
    · cases hcooling.symm.trans hnext
      exact nomatch hphase

end FoundationDbEffect.Persistence
