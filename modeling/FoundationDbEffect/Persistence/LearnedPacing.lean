import FoundationDbEffect.Foundation.Tally
import FoundationDbEffect.Persistence.AdaptiveLimiter
import Mathlib.Tactic.FieldSimp

/-!
# The pacing of a learned key

A paced key spreads its tokens over the windows of a grid.  The grid begins with the learning, or
with the latest request that found no tokens waiting, and the row holds it in a hidden form: the
end of the cooldown lies one refill interval after the beginning for each token that was observed.
A request waits for the window that its last token falls into.
-/

namespace FoundationDbEffect.Persistence

open FoundationDbEffect.Foundation

/-! ## Shares of a window -/

/-- What a window of `limit` tokens that begins after `begin` tokens may have received when
`observed` tokens have been, in requests of at most `most`. -/
def windowShare (limit most begin observed : ℤ) : ℤ :=
  if observed ≤ begin then 0 else min observed (begin + limit) - begin + most - 1

section

variable {limit most begin observed tokens : ℤ}

theorem windowShare_mono {later : ℤ} (hlimit : 0 < limit) (hmost : 0 < most)
    (hle : observed ≤ later) :
    windowShare limit most begin observed ≤ windowShare limit most begin later := by
  simp only [windowShare]
  split <;> split <;> omega

theorem windowShare_add (htokens : tokens ≤ most) (hbegin : begin < observed + tokens)
    (hwithin : observed + tokens ≤ begin + limit) (_ : 0 < tokens) :
    windowShare limit most begin observed + tokens ≤
      windowShare limit most begin (observed + tokens) := by
  simp only [windowShare]
  split <;> split <;> omega

theorem windowShare_le (hlimit : 0 < limit) (hmost : 0 ≤ most) :
    windowShare limit most begin observed ≤ limit + most - 1 := by
  simp only [windowShare]
  split <;> omega

end

/-! ## Requests -/

structure PacedRequest where
  now : ℚ
  options : AdaptiveConsumeOptions
  deriving DecidableEq, Repr

namespace PacedRequest

def run (stored : Option AdaptiveState) (request : PacedRequest) :
    AdaptiveConsumeResult × Option AdaptiveState :=
  adaptiveConsume stored request.options request.now

def rowAfter (stored : Option AdaptiveState) (requests : List PacedRequest) :
    Option AdaptiveState :=
  requests.foldl (fun stored request => (request.run stored).2) stored

def releases : Option AdaptiveState → List PacedRequest → List (ℚ × ℤ)
  | _, [] => []
  | stored, request :: requests =>
    (request.now + (request.run stored).1.delay, request.options.tokens) ::
      releases (request.run stored).2 requests

def findsOver (stored : Option AdaptiveState) (request : PacedRequest) : Bool :=
  stored.any fun state => state.cooldownUntil ≤ request.now

def restarts : Option AdaptiveState → List PacedRequest → List ℚ
  | _, [] => []
  | stored, request :: requests =>
    let later := restarts (request.run stored).2 requests
    if request.findsOver stored then request.now :: later else later

def pacingStart (learned : AdaptiveState) (requests : List PacedRequest) : ℚ :=
  (restarts (some learned) requests).getLast?.getD learned.learningStartedAt

def tokensReleased (learned : AdaptiveState) (requests : List PacedRequest) (window : ℕ) : ℤ :=
  tally
    (fun release =>
      pacingStart learned requests + window * learned.learnedWindowMillis ≤ release.1 ∧
        release.1 < pacingStart learned requests + (window + 1) * learned.learnedWindowMillis)
    Prod.snd (releases (some learned) requests)

variable {stored : Option AdaptiveState} {learned state : AdaptiveState}

theorem rowAfter_snoc (requests : List PacedRequest) (request : PacedRequest) :
    rowAfter stored (requests ++ [request]) = (request.run (rowAfter stored requests)).2 := by
  simp [rowAfter]

theorem releases_snoc (requests : List PacedRequest) (request : PacedRequest) :
    releases stored (requests ++ [request]) = releases stored requests ++
      [(request.now + (request.run (rowAfter stored requests)).1.delay,
        request.options.tokens)] := by
  induction requests generalizing stored with
  | nil => rfl
  | cons first requests ih => simp [releases, ih, rowAfter]

theorem restarts_snoc (requests : List PacedRequest) (request : PacedRequest) :
    restarts stored (requests ++ [request]) = restarts stored requests ++
      if request.findsOver (rowAfter stored requests) then [request.now] else [] := by
  induction requests generalizing stored with
  | nil => by_cases hover : request.findsOver stored <;> simp [restarts, rowAfter, hover]
  | cons first requests ih =>
    rw [List.cons_append, restarts, ih]
    by_cases hover : first.findsOver stored
    · simp only [restarts, hover, if_true, List.cons_append]
      rfl
    · simp only [restarts, hover]
      rfl

theorem pacingStart_snoc {requests : List PacedRequest} (request : PacedRequest)
    (h : rowAfter (some learned) requests = some state) :
    pacingStart learned (requests ++ [request]) =
      if state.cooldownUntil ≤ request.now then request.now
      else pacingStart learned requests := by
  rw [pacingStart, restarts_snoc, h]
  by_cases hover : state.cooldownUntil ≤ request.now
  · simp [findsOver, hover]
  · simp [findsOver, hover, pacingStart]

/-! ## One request -/

theorem run_learned {request : PacedRequest} (hphase : state.phase = .learned)
    (hlive : request.now < state.expiresAt) :
    (request.run (some state)).1.delay = (state.pace request.options.tokens request.now).1 ∧
      (request.run (some state)).2 =
        some (state.pace request.options.tokens request.now).2 := by
  rw [run, adaptiveConsume, AdaptiveState.unexpired_some hlive]
  simp only [hphase, and_self]

/-- A learned state on the grid that begins at a time. -/
structure OnGrid (learned : AdaptiveState) (start : ℚ) (state : AdaptiveState) : Prop where
  phase : state.phase = .learned
  limit : state.learnedLimit = learned.learnedLimit
  window : state.learnedWindowMillis = learned.learnedWindowMillis
  expires : state.expiresAt = learned.expiresAt
  anchor : state.cooldownUntil = start + state.observedTokens * learned.refillRateMillis

def startAfter (state : AdaptiveState) (start now : ℚ) : ℚ :=
  if state.cooldownUntil ≤ now then now else start

def observedBefore (state : AdaptiveState) (now : ℚ) : ℤ :=
  if state.cooldownUntil ≤ now then 0 else state.observedTokens

section

variable {start now : ℚ} {tokens : ℤ}

theorem OnGrid.refill (h : OnGrid learned start state) :
    state.refillRateMillis = learned.refillRateMillis := by
  rw [AdaptiveState.refillRateMillis, h.limit, h.window, AdaptiveState.refillRateMillis]

theorem pace_observed (state : AdaptiveState) (tokens : ℤ) (now : ℚ) :
    (state.pace tokens now).2.observedTokens = observedBefore state now + tokens := by
  simp only [AdaptiveState.pace, observedBefore]
  split <;> simp

theorem OnGrid.pace (h : OnGrid learned start state) (tokens : ℤ) (now : ℚ) :
    OnGrid learned (startAfter state start now) (state.pace tokens now).2 where
  phase := h.phase
  limit := h.limit
  window := h.window
  expires := h.expires
  anchor := by
    rw [pace_observed, observedBefore, startAfter, AdaptiveState.pace, ← h.refill]
    dsimp only
    split
    · push_cast
      ring
    · rw [h.anchor, h.refill]
      push_cast
      ring

/-- The window of the grid that the last token of a request falls into. -/
def windowNumber (learned state : AdaptiveState) (tokens : ℤ) (now : ℚ) : ℤ :=
  ⌊((observedBefore state now + tokens - 1 : ℤ) : ℚ) / learned.learnedLimit⌋

theorem OnGrid.release (h : OnGrid learned start state) (tokens : ℤ) (now : ℚ) :
    now + (state.pace tokens now).1 = max now (startAfter state start now +
      windowNumber learned state tokens now * learned.learnedWindowMillis) := by
  have hwindow : ⌊((state.pace tokens now).2.observedTokens - 1 : ℚ) / state.learnedLimit⌋ =
      windowNumber learned state tokens now := by
    rw [pace_observed, h.limit, windowNumber]
    push_cast
    rfl
  have helapsed : (state.pace tokens now).2.observedTokens * state.refillRateMillis -
      ((state.pace tokens now).2.cooldownUntil - now) = now - startAfter state start now := by
    rw [(h.pace tokens now).anchor, h.refill]
    ring
  have hdelay : (state.pace tokens now).1 = max 0
      (⌊((state.pace tokens now).2.observedTokens - 1 : ℚ) / state.learnedLimit⌋ *
        state.learnedWindowMillis - ((state.pace tokens now).2.observedTokens *
          state.refillRateMillis - ((state.pace tokens now).2.cooldownUntil - now))) :=
    (max_def' _ _).symm
  rw [hdelay, hwindow, helapsed, h.window, ← max_add_add_left, add_zero]
  congr 1
  ring

/-! ### Windows -/

structure Refills (learned : AdaptiveState) : Prop where
  limit : 0 < learned.learnedLimit
  window : 0 < learned.learnedWindowMillis

theorem Refills.pos (h : Refills learned) : 0 < learned.refillRateMillis :=
  div_pos h.window (Int.cast_pos.mpr h.limit)

theorem Refills.window_eq (h : Refills learned) :
    learned.learnedWindowMillis = learned.learnedLimit * learned.refillRateMillis :=
  (mul_div_cancel₀ _ (Int.cast_ne_zero.mpr h.limit.ne')).symm

theorem Refills.windowNumber_le (h : Refills learned) (state : AdaptiveState) (tokens : ℤ)
    (now : ℚ) : windowNumber learned state tokens now * learned.learnedLimit <
      observedBefore state now + tokens := by
  have hfloor := Int.floor_le
    (((observedBefore state now + tokens - 1 : ℤ) : ℚ) / learned.learnedLimit)
  rw [← windowNumber, le_div_iff₀ (Int.cast_pos.mpr h.limit)] at hfloor
  have hle : windowNumber learned state tokens now * learned.learnedLimit ≤
      observedBefore state now + tokens - 1 := by
    exact_mod_cast hfloor
  omega

theorem Refills.le_windowNumber (h : Refills learned) (state : AdaptiveState) (tokens : ℤ)
    (now : ℚ) : observedBefore state now + tokens ≤
      (windowNumber learned state tokens now + 1) * learned.learnedLimit := by
  have hfloor := Int.lt_floor_add_one
    (((observedBefore state now + tokens - 1 : ℤ) : ℚ) / learned.learnedLimit)
  rw [← windowNumber, div_lt_iff₀ (Int.cast_pos.mpr h.limit)] at hfloor
  have hlt : observedBefore state now + tokens - 1 <
      (windowNumber learned state tokens now + 1) * learned.learnedLimit := by
    exact_mod_cast hfloor
  omega

theorem OnGrid.now_le (h : OnGrid learned start state) (now : ℚ) :
    now ≤ startAfter state start now + observedBefore state now * learned.refillRateMillis := by
  rw [startAfter, observedBefore]
  split
  · simp
  · next hwaiting =>
    rw [← h.anchor]
    exact (not_le.mp hwaiting).le

theorem OnGrid.cooldown_lt (h : OnGrid learned start state) (hrefills : Refills learned)
    (htokens : 0 < tokens) (now : ℚ) :
    state.cooldownUntil < (state.pace tokens now).2.cooldownUntil := by
  have hpos : 0 < state.refillRateMillis * tokens :=
    mul_pos (h.refill ▸ hrefills.pos) (Int.cast_pos.mpr htokens)
  simp only [AdaptiveState.pace]
  split <;> linarith

/-- A request is released in the window that its last token falls into, and before the end of the
cooldown that it leaves. -/
theorem OnGrid.release_within (h : OnGrid learned start state) (hrefills : Refills learned)
    (htokens : 0 < tokens) (now : ℚ) :
    startAfter state start now +
        windowNumber learned state tokens now * learned.learnedWindowMillis ≤
      now + (state.pace tokens now).1 ∧
    now + (state.pace tokens now).1 < startAfter state start now +
      (windowNumber learned state tokens now + 1) * learned.learnedWindowMillis ∧
    now + (state.pace tokens now).1 < (state.pace tokens now).2.cooldownUntil := by
  have hrate := hrefills.pos
  have hbefore : (observedBefore state now : ℚ) * learned.refillRateMillis <
      (observedBefore state now + tokens : ℤ) * learned.refillRateMillis :=
    mul_lt_mul_of_pos_right (Int.cast_lt.mpr (by omega)) hrate
  have hend : ((observedBefore state now + tokens : ℤ) : ℚ) * learned.refillRateMillis ≤
      (windowNumber learned state tokens now + 1) * learned.learnedWindowMillis := by
    rw [hrefills.window_eq, ← mul_assoc]
    refine mul_le_mul_of_nonneg_right ?_ hrate.le
    exact_mod_cast hrefills.le_windowNumber state tokens now
  have hbegin : windowNumber learned state tokens now * learned.learnedWindowMillis <
      ((observedBefore state now + tokens : ℤ) : ℚ) * learned.refillRateMillis := by
    rw [hrefills.window_eq, ← mul_assoc]
    refine mul_lt_mul_of_pos_right ?_ hrate
    exact_mod_cast hrefills.windowNumber_le state tokens now
  have hnow := h.now_le now
  rw [h.release, (h.pace tokens now).anchor, pace_observed]
  refine ⟨le_max_right _ _, max_lt ?_ ?_, max_lt ?_ ?_⟩
  · linarith
  · linarith [hrefills.window]
  · linarith
  · linarith

theorem OnGrid.windowNumber_eq (h : OnGrid learned start state) (hrefills : Refills learned)
    (htokens : 0 < tokens) {window : ℕ}
    (hbegin : startAfter state start now + window * learned.learnedWindowMillis ≤
      now + (state.pace tokens now).1)
    (hend : now + (state.pace tokens now).1 <
      startAfter state start now + (window + 1) * learned.learnedWindowMillis) :
    windowNumber learned state tokens now = window := by
  obtain ⟨hbegin', hend', -⟩ := h.release_within hrefills htokens now
  have hle : (window : ℚ) < windowNumber learned state tokens now + 1 :=
    lt_of_mul_lt_mul_right (by linarith) hrefills.window.le
  have hge : (windowNumber learned state tokens now : ℚ) < window + 1 :=
    lt_of_mul_lt_mul_right (by linarith) hrefills.window.le
  have hle' : (window : ℤ) < windowNumber learned state tokens now + 1 := by exact_mod_cast hle
  have hge' : windowNumber learned state tokens now < window + 1 := by exact_mod_cast hge
  omega

end

/-! ## Runs -/

/-- After some requests the state is on the grid, no request is released at the end of the
cooldown or later, and no window has more than its share. -/
structure Pacing (learned : AdaptiveState) (most : ℕ) (requests : List PacedRequest)
    (state : AdaptiveState) : Prop where
  grid : OnGrid learned (pacingStart learned requests) state
  early : ∀ release ∈ releases (some learned) requests, release.1 < state.cooldownUntil
  spread : ∀ window, tokensReleased learned requests window ≤
    windowShare learned.learnedLimit most (window * learned.learnedLimit) state.observedTokens

variable {most : ℕ} {requests : List PacedRequest} {request : PacedRequest}

theorem Pacing.spread_before (h : Pacing learned most requests state) (request : PacedRequest)
    (hrefills : Refills learned) (hrow : rowAfter (some learned) requests = some state) (window : ℕ) :
    tally
        (fun release =>
          pacingStart learned (requests ++ [request]) + window * learned.learnedWindowMillis ≤
              release.1 ∧
            release.1 < pacingStart learned (requests ++ [request]) +
              (window + 1) * learned.learnedWindowMillis)
        Prod.snd (releases (some learned) requests) ≤
      windowShare learned.learnedLimit most (window * learned.learnedLimit)
        (observedBefore state request.now) := by
  rw [pacingStart_snoc request hrow, observedBefore]
  by_cases hover : state.cooldownUntil ≤ request.now
  · rw [if_pos hover, if_pos hover, tally_eq_zero, windowShare, if_pos]
    · exact Int.mul_nonneg (Int.natCast_nonneg _) hrefills.limit.le
    · intro release hmem hwithin
      have hearly := h.early release hmem
      have hbegin : (0 : ℚ) ≤ window * learned.learnedWindowMillis :=
        mul_nonneg (Nat.cast_nonneg _) hrefills.window.le
      linarith [hwithin.1]
  · rw [if_neg hover, if_neg hover]
    exact h.spread window

theorem Pacing.snoc (h : Pacing learned most requests state) (hrefills : Refills learned)
    (hrow : rowAfter (some learned) requests = some state) (htokens : 0 < request.options.tokens)
    (hmost : request.options.tokens ≤ most) (hlive : request.now < learned.expiresAt) :
    ∃ next, rowAfter (some learned) (requests ++ [request]) = some next ∧
      Pacing learned most (requests ++ [request]) next := by
  obtain ⟨hdelay, hnext⟩ := run_learned h.grid.phase (h.grid.expires ▸ hlive)
  have hstart : pacingStart learned (requests ++ [request]) =
      startAfter state (pacingStart learned requests) request.now := pacingStart_snoc request hrow
  have hreleases : releases (some learned) (requests ++ [request]) =
      releases (some learned) requests ++
        [(request.now + (state.pace request.options.tokens request.now).1,
          request.options.tokens)] := by
    rw [releases_snoc, hrow, hdelay]
  refine ⟨(state.pace request.options.tokens request.now).2, by rw [rowAfter_snoc, hrow, hnext], ?_⟩
  constructor
  case grid =>
    rw [hstart]
    exact h.grid.pace request.options.tokens request.now
  case early =>
    intro release hmem
    rw [hreleases, List.mem_append, List.mem_singleton] at hmem
    rcases hmem with hmem | rfl
    · exact (h.early release hmem).trans (h.grid.cooldown_lt hrefills htokens request.now)
    · exact (h.grid.release_within hrefills htokens request.now).2.2
  case spread =>
    intro window
    have hbefore := h.spread_before request hrefills hrow window
    rw [tokensReleased, hreleases, tally_append, tally_cons, tally_nil, add_zero, pace_observed]
    split
    · -- The last token falls into the window.
      next hwithin =>
      rw [hstart] at hwithin
      have hnumber := h.grid.windowNumber_eq hrefills htokens hwithin.1 hwithin.2
      have hbegin := hrefills.windowNumber_le state request.options.tokens request.now
      have hend := hrefills.le_windowNumber state request.options.tokens request.now
      rw [hnumber] at hbegin hend
      rw [add_mul, one_mul] at hend
      exact (add_le_add_left hbefore _).trans (windowShare_add hmost hbegin hend htokens)
    · rw [add_zero]
      exact hbefore.trans (windowShare_mono hrefills.limit (htokens.trans_le hmost) (by omega))

theorem pacing_of_requests {learned : AdaptiveState} (hphase : learned.phase = .learned)
    (hanchor : learned.cooldownUntil = learned.learningStartedAt + learned.learnedWindowMillis)
    (hobserved : learned.observedTokens = learned.learnedLimit) (hrefills : Refills learned)
    (htokens : ∀ request ∈ requests, 0 < request.options.tokens ∧ request.options.tokens ≤ most)
    (hlive : ∀ request ∈ requests, request.now < learned.expiresAt) :
    ∃ state, rowAfter (some learned) requests = some state ∧
      Pacing learned most requests state := by
  induction requests using List.reverseRecOn with
  | nil =>
    refine ⟨learned, rfl, ⟨hphase, rfl, rfl, rfl, ?_⟩, fun release hmem => (nomatch hmem),
      fun window => ?_⟩
    · rw [hanchor, hobserved, ← hrefills.window_eq]
      rfl
    · have hlimit := hrefills.limit
      simp only [tokensReleased, releases, tally_nil, windowShare, hobserved]
      split <;> omega
  | append_singleton requests request ih =>
    rw [List.forall_mem_append, List.forall_mem_singleton] at htokens hlive
    obtain ⟨state, hrow, hpacing⟩ := ih htokens.1 hlive.1
    exact hpacing.snoc hrefills hrow htokens.2.1 htokens.2.2 hlive.2

end PacedRequest

open PacedRequest

structure LearnedPacing (learned : AdaptiveState) (most : ℕ) (requests : List PacedRequest) :
    Prop where
  anchored : ∀ earlier later, requests = earlier ++ later → ∃ state,
    rowAfter (some learned) earlier = some state ∧
      state.cooldownUntil -
          state.observedTokens * learned.learnedWindowMillis / learned.learnedLimit =
        pacingStart learned earlier
  spread : ∀ window, tokensReleased learned requests window ≤ learned.learnedLimit + most - 1
  single : (∀ request ∈ requests, request.options.tokens = 1) →
    ∀ window, tokensReleased learned requests window ≤ learned.learnedLimit

theorem learned_of_feedback {learning learned : AdaptiveState} {now : ℚ}
    {options : AdaptiveFeedbackOptions} (hlearning : learning.phase = .learning)
    (hlearned : adaptiveFeedback (some learning) options now = some learned)
    (hphase : learned.phase = .learned) :
    learned.cooldownUntil = learned.learningStartedAt + learned.learnedWindowMillis ∧
      learned.observedTokens = learned.learnedLimit ∧ Refills learned := by
  rcases AdaptiveCall.run_cases (.feedback now options) (some learning) with
    ⟨state, next, hstate, hrun, hchanges⟩ | hnone | ⟨cooldownUntil, hcooling⟩
  · cases hstate
    cases hrun.symm.trans hlearned
    cases hchanges with
    | stay => exact nomatch hlearning.symm.trans hphase
    | extend cooldownUntil h => exact nomatch h.symm.trans hlearning
    | learn tokens expiresAt h => exact nomatch hphase
    | observe tokens h => exact nomatch h.symm.trans hphase
    | settle hcall h htokens hwindow => exact ⟨rfl, rfl, sub_pos.mpr htokens, hwindow⟩
    | pace tokens h => exact nomatch h.symm.trans hlearning
    | cool cooldownUntil h => exact nomatch hphase
  · exact nomatch hnone.symm.trans hlearned
  · cases hcooling.symm.trans hlearned
    exact nomatch hphase

/-- From the feedback that ends the learning on, requests before the state expires are spread over
the windows, in whatever order of their times they come. -/
theorem learned_pacing {learning learned : AdaptiveState} {now : ℚ}
    {options : AdaptiveFeedbackOptions} (hlearning : learning.phase = .learning)
    (hlearned : adaptiveFeedback (some learning) options now = some learned)
    (hphase : learned.phase = .learned) {most : ℕ} {requests : List PacedRequest}
    (htokens : ∀ request ∈ requests, 0 < request.options.tokens ∧ request.options.tokens ≤ most)
    (hlive : ∀ request ∈ requests, request.now < learned.expiresAt) :
    LearnedPacing learned most requests := by
  obtain ⟨hanchor, hobserved, hrefills⟩ := learned_of_feedback hlearning hlearned hphase
  have hspread (most : ℕ) {requests : List PacedRequest}
      (htokens : ∀ request ∈ requests, 0 < request.options.tokens ∧ request.options.tokens ≤ most)
      (hlive : ∀ request ∈ requests, request.now < learned.expiresAt) (window : ℕ) :
      tokensReleased learned requests window ≤ learned.learnedLimit + most - 1 := by
    obtain ⟨state, -, hpacing⟩ :=
      pacing_of_requests hphase hanchor hobserved hrefills htokens hlive
    exact (hpacing.spread window).trans (windowShare_le hrefills.limit (Int.natCast_nonneg most))
  constructor
  case anchored =>
    rintro earlier later rfl
    rw [List.forall_mem_append] at htokens hlive
    obtain ⟨state, hrow, hpacing⟩ :=
      pacing_of_requests hphase hanchor hobserved hrefills htokens.1 hlive.1
    refine ⟨state, hrow, ?_⟩
    rw [hpacing.grid.anchor, mul_div_assoc, ← AdaptiveState.refillRateMillis]
    ring
  case spread => exact hspread most htokens hlive
  case single =>
    intro hsingle window
    have hle := hspread 1 (fun request hmem => by simp [hsingle request hmem]) hlive window
    omega

/-- Two of three tokens were accepted in a second of learning.  The next two requests wait for the
second after it and a third one for the second after that; a late one begins another grid. -/
theorem learned_pacing_four :
    releases (some ⟨.learned, 2, 1000, 0, 2, 2, 1000, 61500⟩)
        [⟨500, 1, 0⟩, ⟨500, 1, 0⟩, ⟨600, 1, 0⟩, ⟨9000, 1, 0⟩] =
      [(1000, 1), (1000, 1), (2000, 1), (9000, 1)] ∧
    LearnedPacing ⟨.learned, 2, 1000, 0, 2, 2, 1000, 61500⟩ 1
      [⟨500, 1, 0⟩, ⟨500, 1, 0⟩, ⟨600, 1, 0⟩, ⟨9000, 1, 0⟩] :=
  ⟨by decide +kernel,
    @learned_pacing ⟨.learning, 1, 0, 0, 3, 0, 0, 70000⟩ _ 500 ⟨1, 1, 429, some 500⟩ rfl
      (by decide +kernel) rfl 1 _ (by simp) (by norm_num)⟩

end FoundationDbEffect.Persistence
