import FoundationDbEffect.Foundation.Tally
import Mathlib.Data.List.Induction
import Mathlib.Data.Rat.Lemmas
import Mathlib.Tactic.FieldSimp
import Mathlib.Tactic.Linarith
import Mathlib.Tactic.Ring

/-!
# The fixed window

A counter holds the tokens accepted in the current window and the time when the window is over.
Each accepted token makes the window longer by one refill interval.  A call that finds no window,
or one that is over, decides as if a new one began with it; only an accepted call is stored.

As for the token bucket, numbers are exact and rows hold the counter itself.
-/

namespace FoundationDbEffect.Persistence

open FoundationDbEffect.Foundation

structure FixedCounter where
  count : ℚ
  expiresAt : ℚ
  deriving DecidableEq, Repr

structure FixedWindowOptions where
  tokens : ℚ
  limit : Option ℚ
  refillRate : ℚ
  deriving DecidableEq, Repr

def FixedCounter.current (stored : Option FixedCounter) (now : ℚ) : FixedCounter :=
  match stored with
  | none => { count := 0, expiresAt := now }
  | some counter => if counter.expiresAt ≤ now then { count := 0, expiresAt := now } else counter

/-- A call on the row of its key: the count that it would make, the time left, and the row that
it leaves. -/
def fixedWindow (stored : Option FixedCounter) (options : FixedWindowOptions) (now : ℚ) :
    (ℚ × ℚ) × Option FixedCounter :=
  let counter := FixedCounter.current stored now
  let nextCount := counter.count + options.tokens
  if options.limit.any fun limit => nextCount > limit then
    ((nextCount, max 0 (counter.expiresAt - now)), stored)
  else
    let updated : FixedCounter :=
      { count := nextCount
        expiresAt := counter.expiresAt + options.refillRate * options.tokens }
    ((updated.count, max 0 (updated.expiresAt - now)), some updated)

namespace FixedWindow

structure Call where
  now : ℚ
  tokens : ℚ
  deriving DecidableEq, Repr

def Over (stored : Option FixedCounter) (now : ℚ) : Prop :=
  ∀ counter, stored = some counter → counter.expiresAt ≤ now

section

variable (limit refillRate : ℚ)

def Call.run (call : Call) (stored : Option FixedCounter) : (ℚ × ℚ) × Option FixedCounter :=
  fixedWindow stored { tokens := call.tokens, limit := some limit, refillRate } call.now

def Call.Accepted (call : Call) (stored : Option FixedCounter) : Prop :=
  (call.run limit refillRate stored).1.1 ≤ limit

instance (call : Call) (stored : Option FixedCounter) :
    Decidable (call.Accepted limit refillRate stored) :=
  inferInstanceAs (Decidable (_ ≤ _))

def rowAfter (stored : Option FixedCounter) (calls : List Call) : Option FixedCounter :=
  calls.foldl (fun stored call => (call.run limit refillRate stored).2) stored

def accepted : Option FixedCounter → List Call → List Call
  | _, [] => []
  | stored, call :: calls =>
    let next := (call.run limit refillRate stored).2
    if call.Accepted limit refillRate stored then call :: accepted next calls
    else accepted next calls

def tokensWithin (calls : List Call) (start stop : ℚ) : ℚ :=
  tally (fun call => start ≤ call.now ∧ call.now ≤ stop) Call.tokens calls

def Call.Opens (call : Call) (stored : Option FixedCounter) : Prop :=
  Over stored call.now ∧ call.Accepted limit refillRate stored

/-- The current window after some calls is that of the last call that opened one. -/
def CurrentWindow (calls : List Call) (opener : Call) : Prop :=
  ∃ earlier within, calls = earlier ++ opener :: within ∧
    opener.Opens limit refillRate (rowAfter limit refillRate none earlier) ∧
    ∀ before call after, within = before ++ call :: after →
      ¬ call.Opens limit refillRate
        (rowAfter limit refillRate none (earlier ++ opener :: before))

end

variable {limit refillRate : ℚ} {stored : Option FixedCounter} {call : Call}

/-! ## One call -/

theorem current_of_over {now : ℚ} (h : Over stored now) :
    FixedCounter.current stored now = ⟨0, now⟩ := by
  cases stored with
  | none => rfl
  | some counter => exact if_pos (h counter rfl)

theorem current_of_open {counter : FixedCounter} {now : ℚ} (h : now < counter.expiresAt) :
    FixedCounter.current (some counter) now = counter :=
  if_neg h.not_ge

theorem not_over {counter : FixedCounter} {now : ℚ} :
    ¬ Over (some counter) now ↔ now < counter.expiresAt := by
  simp [Over]

theorem Call.accepted_iff : call.Accepted limit refillRate stored ↔
    (FixedCounter.current stored call.now).count + call.tokens ≤ limit := by
  simp only [Call.Accepted, Call.run, fixedWindow, Option.any_some, decide_eq_true_eq]
  split <;> simp

theorem Call.run_accepted (h : call.Accepted limit refillRate stored) :
    (call.run limit refillRate stored).2 =
      some ⟨(FixedCounter.current stored call.now).count + call.tokens,
        (FixedCounter.current stored call.now).expiresAt + refillRate * call.tokens⟩ := by
  simp only [Call.run, fixedWindow, Option.any_some, decide_eq_true_eq]
  rw [if_neg (Call.accepted_iff.mp h).not_gt]

theorem Call.run_rejected (h : ¬ call.Accepted limit refillRate stored) :
    (call.run limit refillRate stored).2 = stored := by
  simp only [Call.run, fixedWindow, Option.any_some, decide_eq_true_eq]
  rw [if_pos (not_le.mp fun hle => h (Call.accepted_iff.mpr hle))]

/-! ## Windows -/

theorem rowAfter_snoc (calls : List Call) (call : Call) :
    rowAfter limit refillRate stored (calls ++ [call]) =
      (call.run limit refillRate (rowAfter limit refillRate stored calls)).2 := by
  simp [rowAfter]

theorem CurrentWindow.opened {calls : List Call}
    (h : call.Opens limit refillRate (rowAfter limit refillRate none calls)) :
    CurrentWindow limit refillRate (calls ++ [call]) call :=
  ⟨calls, [], rfl, h, fun before _ after heq => by simp at heq⟩

theorem CurrentWindow.snoc {calls : List Call} {opener : Call}
    (h : CurrentWindow limit refillRate calls opener)
    (hcall : ¬ call.Opens limit refillRate (rowAfter limit refillRate none calls)) :
    CurrentWindow limit refillRate (calls ++ [call]) opener := by
  obtain ⟨earlier, within, rfl, hopens, hwithin⟩ := h
  refine ⟨earlier, within ++ [call], by simp, hopens, fun before next after heq => ?_⟩
  rcases List.eq_nil_or_concat' after with rfl | ⟨after, last, rfl⟩
  · obtain ⟨rfl, hnext⟩ := List.append_inj' heq rfl
    obtain rfl := List.singleton_inj.mp hnext
    exact hcall
  · rw [← List.cons_append, ← List.append_assoc] at heq
    exact hwithin before next after (List.append_inj' heq rfl).1

/-- The counter of a window holds at most the limit, and the window is over one interval after
its start for each token. -/
theorem counter_of_calls {calls : List Call} {counter : FixedCounter}
    (h : rowAfter limit refillRate none calls = some counter) :
    counter.count ≤ limit ∧ ∃ opener, CurrentWindow limit refillRate calls opener ∧
      counter.expiresAt = opener.now + refillRate * counter.count := by
  induction calls using List.reverseRecOn generalizing counter with
  | nil => cases h
  | append_singleton calls call ih =>
    rw [rowAfter_snoc] at h
    by_cases haccepted : call.Accepted limit refillRate (rowAfter limit refillRate none calls)
    · rw [Call.run_accepted haccepted, Option.some.injEq] at h
      subst h
      refine ⟨Call.accepted_iff.mp haccepted, ?_⟩
      by_cases hover : Over (rowAfter limit refillRate none calls) call.now
      · refine ⟨call, CurrentWindow.opened ⟨hover, haccepted⟩, ?_⟩
        simp [current_of_over hover]
      · cases hrow : rowAfter limit refillRate none calls with
        | none => simp [hrow, Over] at hover
        | some counter =>
          obtain ⟨-, opener, hopener, hexpires⟩ := ih hrow
          refine ⟨opener, hopener.snoc fun hopens => hover hopens.1, ?_⟩
          rw [hrow] at hover
          rw [current_of_open (not_over.mp hover), hexpires]
          ring
    · rw [Call.run_rejected haccepted] at h
      obtain ⟨hcount, opener, hopener, hexpires⟩ := ih h
      exact ⟨hcount, opener, hopener.snoc fun hopens => haccepted hopens.2, hexpires⟩

/-! ## The rate -/

def Valid (limit : ℚ) (stored : Option FixedCounter) : Prop :=
  ∀ counter, stored = some counter → 0 ≤ counter.count ∧ counter.count ≤ limit

theorem Valid.current (h : Valid limit stored) (hlimit : 0 ≤ limit) (now : ℚ) :
    0 ≤ (FixedCounter.current stored now).count ∧
      (FixedCounter.current stored now).count ≤ limit := by
  cases stored with
  | none => exact ⟨le_rfl, hlimit⟩
  | some counter =>
    rw [FixedCounter.current]
    split
    · exact ⟨le_rfl, hlimit⟩
    · exact h counter rfl

theorem Valid.run (h : Valid limit stored) (refillRate : ℚ) (hlimit : 0 ≤ limit)
    (htokens : 0 < call.tokens) : Valid limit (call.run limit refillRate stored).2 := by
  by_cases haccepted : call.Accepted limit refillRate stored
  · rw [Call.run_accepted haccepted]
    rintro _ ⟨⟩
    exact ⟨add_nonneg (h.current hlimit call.now).1 htokens.le, Call.accepted_iff.mp haccepted⟩
  · rw [Call.run_rejected haccepted]
    exact h

/-- The tokens that may still be accepted up to a time: those left in the window, or as many as
the windows after it have room for. -/
def credit (limit refillRate : ℚ) (counter : FixedCounter) (stop : ℚ) : ℚ :=
  max (limit - counter.count) (limit + (stop - counter.expiresAt) / refillRate)

theorem credit_add (hrate : 0 < refillRate) (counter : FixedCounter) (tokens stop : ℚ) :
    credit limit refillRate
      ⟨counter.count + tokens, counter.expiresAt + refillRate * tokens⟩ stop + tokens =
        credit limit refillRate counter stop := by
  have hinterval : (stop - (counter.expiresAt + refillRate * tokens)) / refillRate =
      (stop - counter.expiresAt) / refillRate - tokens := by
    field_simp
    ring
  rw [credit, credit, hinterval, max_add]
  congr 1 <;> ring

theorem credit_current (hrate : 0 < refillRate) {counter : FixedCounter} {now stop : ℚ}
    (hstop : now ≤ stop) : credit limit refillRate (FixedCounter.current (some counter) now) stop ≤
      credit limit refillRate counter stop := by
  rcases lt_or_ge now counter.expiresAt with hopen | hover
  · rw [current_of_open hopen]
  · rw [current_of_over fun _ heq => Option.some.inj heq ▸ hover]
    have hrest : 0 ≤ (stop - now) / refillRate := div_nonneg (sub_nonneg.mpr hstop) hrate.le
    refine (max_le ?_ ?_).trans (le_max_right _ _)
    · have hle : (stop - now) / refillRate ≤ (stop - counter.expiresAt) / refillRate :=
        div_le_div_of_nonneg_right (sub_le_sub_left hover stop) hrate.le
      linarith
    · exact add_le_add_right
        (div_le_div_of_nonneg_right (sub_le_sub_left hover stop) hrate.le) limit

theorem Valid.credit_nonneg {counter : FixedCounter} (h : Valid limit (some counter)) (stop : ℚ) :
    0 ≤ credit limit refillRate counter stop :=
  (sub_nonneg.mpr (h counter rfl).2).trans (le_max_left _ _)

theorem Valid.credit_le {now start stop : ℚ} (h : Valid limit stored) (hlimit : 0 ≤ limit)
    (hrate : 0 < refillRate) (hstart : start ≤ now) (hle : start ≤ stop) :
    credit limit refillRate (FixedCounter.current stored now) stop ≤
      limit + (stop - start) / refillRate := by
  have hexpires : start ≤ (FixedCounter.current stored now).expiresAt := by
    by_cases hover : Over stored now
    · rw [current_of_over hover]
      exact hstart
    · cases stored with
      | none => simp [Over] at hover
      | some counter =>
        rw [current_of_open (not_over.mp hover)]
        exact hstart.trans (not_over.mp hover).le
  have hrest : 0 ≤ (stop - start) / refillRate := div_nonneg (sub_nonneg.mpr hle) hrate.le
  refine max_le ?_ (add_le_add_right ?_ limit)
  · have hcount := (h.current hlimit now).1
    linarith
  · exact div_le_div_of_nonneg_right (sub_le_sub_left hexpires stop) hrate.le

theorem accepted_cons (stored : Option FixedCounter) (call : Call) (calls : List Call) :
    accepted limit refillRate stored (call :: calls) =
      if call.Accepted limit refillRate stored then
        call :: accepted limit refillRate (call.run limit refillRate stored).2 calls
      else accepted limit refillRate stored calls := by
  rw [accepted]
  split
  · rfl
  · next hrejected => rw [Call.run_rejected hrejected]

theorem accepted_subset {calls : List Call} :
    ∀ call ∈ accepted limit refillRate stored calls, call ∈ calls := by
  induction calls generalizing stored with
  | nil => exact fun _ hmem => hmem
  | cons call calls ih =>
    intro later hmem
    rw [accepted_cons] at hmem
    split at hmem
    · rcases List.mem_cons.mp hmem with rfl | hmem
      · exact List.mem_cons_self
      · exact List.mem_cons_of_mem _ (ih later hmem)
    · exact List.mem_cons_of_mem _ (ih later hmem)

theorem tokensWithin_late {calls : List Call} {start stop : ℚ}
    (hsorted : (call :: calls).Pairwise (·.now ≤ ·.now)) (hlate : stop < call.now) :
    tokensWithin (accepted limit refillRate stored (call :: calls)) start stop = 0 := by
  refine tally_eq_zero _ _ fun later hmem hwithin => hwithin.2.not_gt ?_
  rcases List.mem_cons.mp (accepted_subset later hmem) with rfl | hmem
  · exact hlate
  · exact hlate.trans_le ((List.pairwise_cons.mp hsorted).1 later hmem)

theorem tokensWithin_cons_le (htokens : 0 < call.tokens) (calls : List Call) (start stop : ℚ) :
    tokensWithin (call :: calls) start stop ≤ call.tokens + tokensWithin calls start stop := by
  rw [tokensWithin, tally_cons]
  refine add_le_add_left ?_ _
  split
  · exact le_rfl
  · exact htokens.le

/-- From a stored counter on, the accepted tokens stay within its credit. -/
theorem tokensWithin_le_credit {calls : List Call} {counter : FixedCounter} (hlimit : 0 ≤ limit)
    (hrate : 0 < refillRate) (hvalid : Valid limit (some counter))
    (htokens : ∀ call ∈ calls, 0 < call.tokens) (hsorted : calls.Pairwise (·.now ≤ ·.now))
    (start stop : ℚ) : tokensWithin (accepted limit refillRate (some counter) calls) start stop ≤
      credit limit refillRate counter stop := by
  induction calls generalizing counter with
  | nil => exact hvalid.credit_nonneg stop
  | cons call calls ih =>
    obtain ⟨hcall, htokens⟩ := List.forall_mem_cons.mp htokens
    rcases lt_or_ge stop call.now with hlate | hwithin
    · rw [tokensWithin_late hsorted hlate]
      exact hvalid.credit_nonneg stop
    · rw [accepted_cons]
      split
      · next haccepted =>
        have hnext := hvalid.run refillRate hlimit hcall
        rw [Call.run_accepted haccepted] at hnext ⊢
        calc _ ≤ call.tokens + _ := tokensWithin_cons_le hcall _ start stop
          _ ≤ call.tokens + credit limit refillRate _ stop :=
              add_le_add_right (ih hnext htokens (List.pairwise_cons.mp hsorted).2) _
          _ = credit limit refillRate (FixedCounter.current (some counter) call.now) stop :=
              (add_comm _ _).trans (credit_add hrate _ _ stop)
          _ ≤ credit limit refillRate counter stop := credit_current hrate hwithin
      · exact ih hvalid htokens (List.pairwise_cons.mp hsorted).2

theorem tokensWithin_le {calls : List Call} (hlimit : 0 ≤ limit) (hrate : 0 < refillRate)
    (hvalid : Valid limit stored) (htokens : ∀ call ∈ calls, 0 < call.tokens)
    (hsorted : calls.Pairwise (·.now ≤ ·.now)) {start stop : ℚ} (hle : start ≤ stop) :
    tokensWithin (accepted limit refillRate stored calls) start stop ≤
      limit + (stop - start) / refillRate := by
  have hrest : 0 ≤ (stop - start) / refillRate := div_nonneg (sub_nonneg.mpr hle) hrate.le
  induction calls generalizing stored with
  | nil => exact add_nonneg hlimit hrest
  | cons call calls ih =>
    obtain ⟨hcall, htokens⟩ := List.forall_mem_cons.mp htokens
    have hsorted' := (List.pairwise_cons.mp hsorted).2
    rcases lt_or_ge stop call.now with hlate | hwithin
    · rw [tokensWithin_late hsorted hlate]
      exact add_nonneg hlimit hrest
    · rw [accepted_cons]
      split
      · next haccepted =>
        have hnext := hvalid.run refillRate hlimit hcall
        rcases lt_or_ge call.now start with hearly | hstarted
        · -- The interval has not begun.
          rw [tokensWithin, tally_cons, if_neg fun h => hearly.not_ge h.1, zero_add]
          exact ih hnext htokens hsorted'
        · -- The first accepted call of the interval opens its credit.
          rw [Call.run_accepted haccepted] at hnext ⊢
          calc _ ≤ call.tokens + _ := tokensWithin_cons_le hcall _ start stop
            _ ≤ call.tokens + credit limit refillRate _ stop := add_le_add_right
                (tokensWithin_le_credit hlimit hrate hnext htokens hsorted' start stop) _
            _ = credit limit refillRate (FixedCounter.current stored call.now) stop :=
                (add_comm _ _).trans (credit_add hrate _ _ stop)
            _ ≤ _ := hvalid.credit_le hlimit hrate hstarted hle
      · exact ih hvalid htokens hsorted'

structure RateBound (limit refillRate : ℚ) (calls : List Call) : Prop where
  stored : ∀ earlier later, calls = earlier ++ later → ∀ counter,
    rowAfter limit refillRate none earlier = some counter →
      counter.count ≤ limit ∧ ∃ opener, CurrentWindow limit refillRate earlier opener ∧
        counter.expiresAt = opener.now + refillRate * counter.count
  rejected : ∀ earlier call later, calls = earlier ++ call :: later →
    ¬ call.Accepted limit refillRate (rowAfter limit refillRate none earlier) →
      rowAfter limit refillRate none (earlier ++ [call]) = rowAfter limit refillRate none earlier
  rate : ∀ start stop, start ≤ stop →
    tokensWithin (accepted limit refillRate none calls) start stop ≤
      2 * limit + (stop - start) / refillRate

/-- Calls in the order of their times keep to the rate. -/
theorem fixedWindow_rateBound {calls : List Call} (hlimit : 0 ≤ limit) (hrate : 0 < refillRate)
    (htokens : ∀ call ∈ calls, 0 < call.tokens) (hsorted : calls.Pairwise (·.now ≤ ·.now)) :
    RateBound limit refillRate calls where
  stored _ _ _ _ hcounter := counter_of_calls hcounter
  rejected earlier call _ _ hrejected := by rw [rowAfter_snoc, Call.run_rejected hrejected]
  rate start stop hle := by
    have hnone : Valid limit none := fun _ h => nomatch h
    have hbound := tokensWithin_le hlimit hrate hnone htokens hsorted hle
    linarith

/-- Three calls of two tokens on a limit of three, with an interval of one hundred milliseconds:
the second one is rejected, and the third one opens another window. -/
theorem fixedWindow_rateBound_three :
    accepted 3 100 none [⟨0, 2⟩, ⟨150, 2⟩, ⟨200, 2⟩] = [⟨0, 2⟩, ⟨200, 2⟩] ∧
      RateBound 3 100 [⟨0, 2⟩, ⟨150, 2⟩, ⟨200, 2⟩] :=
  ⟨by decide +kernel,
    fixedWindow_rateBound (by norm_num) (by norm_num) (by norm_num) (by norm_num)⟩

end FixedWindow

end FoundationDbEffect.Persistence
