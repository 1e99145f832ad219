import FoundationDbEffect.Foundation.Tally
import Mathlib.Algebra.Order.Floor.Ring
import Mathlib.Data.Rat.Floor
import Mathlib.Tactic.FieldSimp
import Mathlib.Tactic.Linarith

/-!
# The token bucket

A bucket holds a number of tokens and the time of its last refill. A call first adds the tokens of
the whole refill intervals since then, up to the limit, and leaves the rest of the time for the
next call; a full bucket has no rest. Then it takes its tokens if there are enough.

A call runs in one transaction on the row of its key, which is not retried after an ambiguous
commit. Numbers are exact, and rows hold the bucket itself instead of its JSON text.
-/

namespace FoundationDbEffect.Persistence

open FoundationDbEffect.Foundation

structure TokenBucket where
  tokens : ℚ
  lastRefill : ℚ
  deriving DecidableEq, Repr

structure TokenBucketOptions where
  tokens : ℚ
  limit : ℚ
  refillRate : ℚ
  allowOverflow : Bool
  deriving DecidableEq, Repr

namespace TokenBucket

def tokensToAdd (bucket : TokenBucket) (refillRate now : ℚ) : ℤ :=
  ⌊(now - bucket.lastRefill) / refillRate⌋

/-- The bucket with the tokens of the whole intervals that have passed. -/
def refill (bucket : TokenBucket) (limit refillRate now : ℚ) : TokenBucket :=
  let tokensToAdd := bucket.tokensToAdd refillRate now
  if tokensToAdd > 0 then
    { tokens := min limit (bucket.tokens + tokensToAdd)
      lastRefill := bucket.lastRefill + tokensToAdd * refillRate }
  else bucket

def settle (bucket : TokenBucket) (limit refillRate now : ℚ) : TokenBucket :=
  let refilled := bucket.refill limit refillRate now
  if refilled.tokens ≥ limit then { refilled with lastRefill := now } else refilled

end TokenBucket

/-- A call on the row of its key: the remaining tokens, the time since the last refill, and the
row that the call leaves. -/
def tokenBucket (stored : Option TokenBucket) (options : TokenBucketOptions) (now : ℚ) :
    (ℚ × ℚ) × Option TokenBucket :=
  let bucket := stored.getD { tokens := options.limit, lastRefill := now }
  let tokensToAdd := bucket.tokensToAdd options.refillRate now
  let settled := bucket.settle options.limit options.refillRate now
  let remaining := settled.tokens - options.tokens
  let result := (remaining, max 0 (now - settled.lastRefill))
  if options.allowOverflow ∨ remaining ≥ 0 then
    (result, some { settled with tokens := remaining })
  else if stored.isNone then (result, some settled)
  else if tokensToAdd > 0 ∨ settled.lastRefill = now then (result, some settled)
  else (result, stored)

/-! ## Settled buckets -/

namespace TokenBucket

variable {bucket : TokenBucket} {limit refillRate now later : ℚ}

theorem tokensToAdd_nonneg (hrate : 0 < refillRate) (h : bucket.lastRefill ≤ now) :
    0 ≤ bucket.tokensToAdd refillRate now :=
  Int.floor_nonneg.mpr (div_nonneg (sub_nonneg.mpr h) hrate.le)

theorem tokensToAdd_mono (hrate : 0 < refillRate) (h : now ≤ later) :
    bucket.tokensToAdd refillRate now ≤ bucket.tokensToAdd refillRate later :=
  Int.floor_le_floor (div_le_div_of_nonneg_right (sub_le_sub_right h _) hrate.le)

theorem tokensToAdd_le (hrate : 0 < refillRate) :
    bucket.lastRefill + bucket.tokensToAdd refillRate now * refillRate ≤ now := by
  have hfloor := (le_div_iff₀ hrate).mp (Int.floor_le ((now - bucket.lastRefill) / refillRate))
  rw [tokensToAdd]
  linarith

theorem lt_tokensToAdd (hrate : 0 < refillRate) :
    now < bucket.lastRefill + bucket.tokensToAdd refillRate now * refillRate + refillRate := by
  have hfloor :=
    (div_lt_iff₀ hrate).mp (Int.lt_floor_add_one ((now - bucket.lastRefill) / refillRate))
  rw [tokensToAdd]
  linarith

theorem tokensToAdd_shift (bucket : TokenBucket) (hrate : 0 < refillRate) (tokens : ℚ) (count : ℤ) :
    tokensToAdd { tokens, lastRefill := bucket.lastRefill + count * refillRate } refillRate now =
      bucket.tokensToAdd refillRate now - count := by
  have hshift : (now - (bucket.lastRefill + count * refillRate)) / refillRate =
      (now - bucket.lastRefill) / refillRate - count := by
    field_simp
    ring
  rw [tokensToAdd, hshift, Int.floor_sub_intCast]
  rfl

theorem settle_cases (bucket : TokenBucket) (hrate : 0 < refillRate) (h : bucket.lastRefill ≤ now)
    (hlimit : bucket.tokens ≤ limit) :
    (limit ≤ bucket.tokens + bucket.tokensToAdd refillRate now ∧
        bucket.settle limit refillRate now = ⟨limit, now⟩) ∨
      (bucket.tokens + bucket.tokensToAdd refillRate now < limit ∧
        bucket.settle limit refillRate now =
          ⟨bucket.tokens + bucket.tokensToAdd refillRate now,
            bucket.lastRefill + bucket.tokensToAdd refillRate now * refillRate⟩) := by
  have hnonneg := tokensToAdd_nonneg hrate h
  have hrefill : bucket.refill limit refillRate now =
      ⟨min limit (bucket.tokens + bucket.tokensToAdd refillRate now),
        bucket.lastRefill + bucket.tokensToAdd refillRate now * refillRate⟩ := by
    rw [refill]
    rcases hnonneg.eq_or_lt with hzero | hpos
    · rw [if_neg (by omega), ← hzero]
      simp [min_eq_right hlimit]
    · rw [if_pos hpos]
  rw [settle, hrefill]
  rcases le_or_gt limit (bucket.tokens + bucket.tokensToAdd refillRate now) with hfull | hroom
  · left
    simp [hfull]
  · right
    simp [min_eq_right hroom.le, hroom]

/-- A bucket that has been settled before is settled to the same as one that has not. -/
theorem settle_settle (hrate : 0 < refillRate) (h : bucket.lastRefill ≤ now) (hlater : now ≤ later)
    (hlimit : bucket.tokens ≤ limit) :
    (bucket.settle limit refillRate now).settle limit refillRate later =
      bucket.settle limit refillRate later := by
  have hmono : (bucket.tokensToAdd refillRate now : ℚ) ≤ bucket.tokensToAdd refillRate later :=
    Int.cast_le.mpr (tokensToAdd_mono hrate hlater)
  rcases settle_cases bucket hrate h hlimit with ⟨hfull, heq⟩ | ⟨hroom, heq⟩
  · rw [heq]
    have hadd : (0 : ℚ) ≤ tokensToAdd ⟨limit, now⟩ refillRate later :=
      Int.cast_nonneg (tokensToAdd_nonneg hrate hlater)
    rcases settle_cases ⟨limit, now⟩ hrate hlater le_rfl with ⟨-, heq'⟩ | ⟨hroom, -⟩
    · rcases settle_cases bucket hrate (h.trans hlater) hlimit with ⟨-, heq''⟩ | ⟨hroom, -⟩
      · rw [heq', heq'']
      · linarith
    · dsimp only at hroom
      linarith
  · have hbegin : bucket.lastRefill + bucket.tokensToAdd refillRate now * refillRate ≤ later :=
      (tokensToAdd_le hrate).trans hlater
    rw [heq]
    have hcases := settle_cases ⟨bucket.tokens + bucket.tokensToAdd refillRate now,
      bucket.lastRefill + bucket.tokensToAdd refillRate now * refillRate⟩ hrate hbegin hroom.le
    rw [tokensToAdd_shift bucket hrate, Int.cast_sub] at hcases
    rcases settle_cases bucket hrate (h.trans hlater) hlimit with ⟨hfull', heq'⟩ | ⟨hroom', heq'⟩
    · rcases hcases with ⟨-, heq''⟩ | ⟨hroom'', -⟩
      · rw [heq', heq'']
      · dsimp only at hroom''
        linarith
    · rcases hcases with ⟨hfull'', -⟩ | ⟨-, heq''⟩
      · dsimp only at hfull''
        linarith
      · rw [heq', heq'']
        congr 1 <;> ring

structure Valid (limit now : ℚ) (bucket : TokenBucket) : Prop where
  nonneg : 0 ≤ bucket.tokens
  le_limit : bucket.tokens ≤ limit
  whole : ∃ taken : ℤ, limit - bucket.tokens = taken
  refilled : bucket.lastRefill ≤ now

theorem Valid.mono (h : bucket.Valid limit now) (hlater : now ≤ later) : bucket.Valid limit later :=
  ⟨h.nonneg, h.le_limit, h.whole, h.refilled.trans hlater⟩

theorem Valid.settle (h : bucket.Valid limit now) (hlimit : 0 ≤ limit) (hrate : 0 < refillRate) :
    (bucket.settle limit refillRate now).Valid limit now := by
  have hadd : (0 : ℚ) ≤ bucket.tokensToAdd refillRate now :=
    Int.cast_nonneg (tokensToAdd_nonneg hrate h.refilled)
  rcases settle_cases bucket hrate h.refilled h.le_limit with ⟨-, heq⟩ | ⟨hroom, heq⟩
  · rw [heq]
    exact ⟨hlimit, le_rfl, ⟨0, by simp⟩, le_rfl⟩
  · rw [heq]
    obtain ⟨taken, htaken⟩ := h.whole
    refine ⟨add_nonneg h.nonneg hadd, hroom.le, ⟨taken - bucket.tokensToAdd refillRate now, ?_⟩,
      tokensToAdd_le hrate⟩
    rw [Int.cast_sub, ← htaken]
    ring

theorem Valid.take (h : bucket.Valid limit now) {count : ℕ} (hcount : count ≤ bucket.tokens) :
    Valid limit now { bucket with tokens := bucket.tokens - count } := by
  obtain ⟨taken, htaken⟩ := h.whole
  refine ⟨sub_nonneg.mpr hcount, ?_, ⟨taken + count, ?_⟩, h.refilled⟩
  · have hle := h.le_limit
    have hnonneg : (0 : ℚ) ≤ count := Nat.cast_nonneg count
    dsimp only
    linarith
  · dsimp only
    push_cast
    rw [← htaken]
    ring

end TokenBucket

/-! ## Calls on one key -/

structure TokenBucketCall where
  now : ℚ
  tokens : ℕ
  deriving DecidableEq, Repr

section Calls

variable (limit refillRate : ℚ)

def TokenBucketCall.run (call : TokenBucketCall) (stored : Option TokenBucket) :
    (ℚ × ℚ) × Option TokenBucket :=
  tokenBucket stored { tokens := call.tokens, limit, refillRate, allowOverflow := false } call.now

def rowAfter (stored : Option TokenBucket) (calls : List TokenBucketCall) : Option TokenBucket :=
  calls.foldl (fun stored call => (call.run limit refillRate stored).2) stored

def results : Option TokenBucket → List TokenBucketCall → List (ℚ × ℚ)
  | _, [] => []
  | stored, call :: calls =>
    let (result, next) := call.run limit refillRate stored
    result :: results next calls

/-- The calls that are accepted: those that leave no negative number of tokens. -/
def accepted : Option TokenBucket → List TokenBucketCall → List TokenBucketCall
  | _, [] => []
  | stored, call :: calls =>
    let (result, next) := call.run limit refillRate stored
    if 0 ≤ result.1 then call :: accepted next calls else accepted next calls

def available (stored : Option TokenBucket) (now : ℚ) : ℚ :=
  match stored with
  | none => limit
  | some bucket => min limit (bucket.tokens + ⌊(now - bucket.lastRefill) / refillRate⌋)

def tokensWithin (calls : List TokenBucketCall) (start stop : ℚ) : ℚ :=
  ((calls.filter fun call => start ≤ call.now ∧ call.now ≤ stop).map fun call =>
    (call.tokens : ℚ)).sum

def settled (stored : Option TokenBucket) (now : ℚ) : TokenBucket :=
  (stored.getD ⟨limit, now⟩).settle limit refillRate now

end Calls

def ValidRow (limit now : ℚ) (stored : Option TokenBucket) : Prop :=
  ∀ bucket, stored = some bucket → bucket.Valid limit now

section Runs

variable {limit refillRate now : ℚ} {stored : Option TokenBucket}

theorem ValidRow.mono {later : ℚ} (h : ValidRow limit now stored) (hlater : now ≤ later) :
    ValidRow limit later stored :=
  fun bucket hbucket => (h bucket hbucket).mono hlater

theorem ValidRow.start (h : ValidRow limit now stored) (hlimit : 0 ≤ limit) :
    TokenBucket.Valid limit now (stored.getD ⟨limit, now⟩) := by
  cases stored with
  | none => exact ⟨hlimit, le_rfl, ⟨0, by simp⟩, le_rfl⟩
  | some bucket => exact h bucket rfl

theorem ValidRow.settled (h : ValidRow limit now stored) (hlimit : 0 ≤ limit)
    (hrate : 0 < refillRate) : (settled limit refillRate stored now).Valid limit now :=
  (h.start hlimit).settle hlimit hrate

theorem settled_tokens (h : ValidRow limit now stored) (hlimit : 0 ≤ limit)
    (hrate : 0 < refillRate) :
    (Persistence.settled limit refillRate stored now).tokens = available limit refillRate stored now := by
  have hstart := h.start hlimit
  rcases TokenBucket.settle_cases _ hrate hstart.refilled hstart.le_limit with
    ⟨hfull, heq⟩ | ⟨hroom, heq⟩
  · rw [Persistence.settled, heq]
    cases stored with
    | none => rfl
    | some bucket => exact (min_eq_left hfull).symm
  · rw [Persistence.settled, heq]
    cases stored with
    | none => simp [TokenBucket.tokensToAdd] at hroom
    | some bucket => exact (min_eq_right hroom.le).symm

theorem TokenBucketCall.run_eq (call : TokenBucketCall) (hlimit : 0 ≤ limit)
    (hrate : 0 < refillRate) (h : ValidRow limit call.now stored) :
    call.run limit refillRate stored =
      (((Persistence.settled limit refillRate stored call.now).tokens - call.tokens,
          max 0 (call.now - (Persistence.settled limit refillRate stored call.now).lastRefill)),
        if call.tokens ≤ (Persistence.settled limit refillRate stored call.now).tokens then
          some { Persistence.settled limit refillRate stored call.now with
            tokens := (Persistence.settled limit refillRate stored call.now).tokens - call.tokens }
        else some (Persistence.settled limit refillRate stored call.now)) := by
  have hstart := h.start hlimit
  have hkept : ∀ bucket, stored = some bucket →
      ¬((stored.getD ⟨limit, call.now⟩).tokensToAdd refillRate call.now > 0 ∨
        (Persistence.settled limit refillRate stored call.now).lastRefill = call.now) →
      Persistence.settled limit refillRate stored call.now = bucket := by
    rintro bucket rfl hsame
    rw [Option.getD_some, not_or] at hsame
    have hzero : bucket.tokensToAdd refillRate call.now = 0 :=
      le_antisymm (not_lt.mp hsame.1) (TokenBucket.tokensToAdd_nonneg hrate hstart.refilled)
    rcases TokenBucket.settle_cases bucket hrate hstart.refilled hstart.le_limit with
      ⟨-, heq⟩ | ⟨-, heq⟩
    · exact absurd (by rw [Persistence.settled, Option.getD_some, heq]) hsame.2
    · rw [Persistence.settled, Option.getD_some, heq, hzero]
      simp
  rw [TokenBucketCall.run, tokenBucket]
  simp only [Bool.false_eq_true, false_or]
  by_cases haccepted : (call.tokens : ℚ) ≤ (Persistence.settled limit refillRate stored call.now).tokens
  · rw [if_pos haccepted]
    exact if_pos (sub_nonneg.mpr haccepted)
  · rw [if_neg haccepted]
    refine (if_neg fun hle => haccepted (sub_nonneg.mp hle)).trans ?_
    cases stored with
    | none => rfl
    | some bucket =>
      rw [Option.isNone_some, if_neg Bool.false_ne_true]
      by_cases hwritten : (Option.getD (some bucket) ⟨limit, call.now⟩).tokensToAdd refillRate
          call.now > 0 ∨ (Persistence.settled limit refillRate (some bucket) call.now).lastRefill =
          call.now
      · exact if_pos hwritten
      · rw [hkept bucket rfl hwritten]
        refine (if_neg hwritten).trans ?_
        exact congrArg (fun settled : TokenBucket => ((settled.tokens - (call.tokens : ℚ),
          max 0 (call.now - settled.lastRefill)), some bucket)) (hkept bucket rfl hwritten)

theorem TokenBucketCall.accepts_iff (call : TokenBucketCall) (hlimit : 0 ≤ limit)
    (hrate : 0 < refillRate) (h : ValidRow limit call.now stored) :
    0 ≤ (call.run limit refillRate stored).1.1 ↔
      call.tokens ≤ available limit refillRate stored call.now := by
  rw [call.run_eq hlimit hrate h, ← settled_tokens h hlimit hrate]
  exact sub_nonneg

theorem TokenBucketCall.run_accepted (call : TokenBucketCall) (hlimit : 0 ≤ limit)
    (hrate : 0 < refillRate) (h : ValidRow limit call.now stored)
    (haccepted : 0 ≤ (call.run limit refillRate stored).1.1) :
    (call.tokens : ℚ) ≤ (Persistence.settled limit refillRate stored call.now).tokens ∧
      (call.run limit refillRate stored).2 =
        some { Persistence.settled limit refillRate stored call.now with
          tokens := (Persistence.settled limit refillRate stored call.now).tokens - call.tokens } := by
  rw [call.run_eq hlimit hrate h] at haccepted ⊢
  have hle := sub_nonneg.mp haccepted
  exact ⟨hle, if_pos hle⟩

theorem TokenBucketCall.run_rejected (call : TokenBucketCall) (hlimit : 0 ≤ limit)
    (hrate : 0 < refillRate) (h : ValidRow limit call.now stored)
    (hrejected : ¬0 ≤ (call.run limit refillRate stored).1.1) :
    (call.run limit refillRate stored).2 =
      some (Persistence.settled limit refillRate stored call.now) := by
  rw [call.run_eq hlimit hrate h] at hrejected ⊢
  exact if_neg fun hle => hrejected (sub_nonneg.mpr hle)

theorem ValidRow.run {call : TokenBucketCall} (h : ValidRow limit call.now stored)
    (hlimit : 0 ≤ limit) (hrate : 0 < refillRate) :
    ValidRow limit call.now (call.run limit refillRate stored).2 := by
  rintro bucket hbucket
  by_cases haccepted : 0 ≤ (call.run limit refillRate stored).1.1
  · obtain ⟨hle, hrow⟩ := call.run_accepted hlimit hrate h haccepted
    obtain rfl := Option.some.inj (hrow.symm.trans hbucket)
    exact (h.settled hlimit hrate).take hle
  · obtain rfl :=
      Option.some.inj ((call.run_rejected hlimit hrate h haccepted).symm.trans hbucket)
    exact h.settled hlimit hrate

theorem ValidRow.rowAfter {calls : List TokenBucketCall} (h : ValidRow limit now stored)
    (hlimit : 0 ≤ limit) (hrate : 0 < refillRate) (hstart : ∀ call ∈ calls, now ≤ call.now)
    (hsorted : calls.Pairwise (·.now ≤ ·.now)) {later : ℚ} (hnow : now ≤ later)
    (hlater : ∀ call ∈ calls, call.now ≤ later) :
    ValidRow limit later (rowAfter limit refillRate stored calls) := by
  induction calls generalizing now stored with
  | nil => exact h.mono hnow
  | cons call calls ih =>
    obtain ⟨hfirst, hrest⟩ := List.pairwise_cons.mp hsorted
    have hcall := hstart call List.mem_cons_self
    exact ih ((h.mono hcall).run hlimit hrate) hfirst hrest (hlater call List.mem_cons_self)
      fun later hmem => hlater later (List.mem_cons_of_mem _ hmem)

/-! ### Rejected calls -/

theorem results_congr {other : Option TokenBucket} {calls : List TokenBucketCall}
    (hlimit : 0 ≤ limit) (hrate : 0 < refillRate) (h : ValidRow limit now stored)
    (hother : ValidRow limit now other)
    (hsame : ∀ later, now ≤ later →
      settled limit refillRate stored later = settled limit refillRate other later)
    (hstart : ∀ call ∈ calls, now ≤ call.now) :
    results limit refillRate stored calls = results limit refillRate other calls := by
  cases calls with
  | nil => rfl
  | cons call calls =>
    have hcall := hstart call List.mem_cons_self
    have hrun : call.run limit refillRate stored = call.run limit refillRate other := by
      rw [call.run_eq hlimit hrate (h.mono hcall), call.run_eq hlimit hrate (hother.mono hcall),
        hsame call.now hcall]
    rw [results, results, hrun]

theorem settle_full (hrate : 0 < refillRate) {later : ℚ} (hlater : now ≤ later) :
    TokenBucket.settle ⟨limit, now⟩ limit refillRate later = ⟨limit, later⟩ := by
  rcases TokenBucket.settle_cases ⟨limit, now⟩ hrate hlater le_rfl with ⟨-, heq⟩ | ⟨hroom, -⟩
  · exact heq
  · have hadd : (0 : ℚ) ≤ TokenBucket.tokensToAdd ⟨limit, now⟩ refillRate later :=
      Int.cast_nonneg (TokenBucket.tokensToAdd_nonneg hrate hlater)
    dsimp only at hroom
    linarith

theorem settled_settled (hlimit : 0 ≤ limit) (hrate : 0 < refillRate)
    (h : ValidRow limit now stored) {later : ℚ} (hlater : now ≤ later) :
    settled limit refillRate (some (settled limit refillRate stored now)) later =
      settled limit refillRate stored later := by
  have hstart := h.start hlimit
  cases stored with
  | none =>
    rw [settled, settled, settled, Option.getD_some, Option.getD_none, Option.getD_none,
      settle_full hrate le_rfl, settle_full hrate hlater, settle_full hrate le_rfl]
  | some bucket => exact TokenBucket.settle_settle hrate hstart.refilled hlater hstart.le_limit

theorem results_rejected {call : TokenBucketCall} {calls : List TokenBucketCall}
    (hlimit : 0 ≤ limit) (hrate : 0 < refillRate) (h : ValidRow limit call.now stored)
    (hrejected : ¬0 ≤ (call.run limit refillRate stored).1.1)
    (hstart : ∀ later ∈ calls, call.now ≤ later.now) :
    results limit refillRate (call.run limit refillRate stored).2 calls =
      results limit refillRate stored calls := by
  refine results_congr hlimit hrate (h.run hlimit hrate) h (fun later hlater => ?_) hstart
  rw [call.run_rejected hlimit hrate h hrejected]
  exact settled_settled hlimit hrate h hlater

/-! ### Accepted tokens -/

theorem tokensWithin_cons (call : TokenBucketCall) (calls : List TokenBucketCall)
    (start stop : ℚ) : tokensWithin (call :: calls) start stop =
      (if start ≤ call.now ∧ call.now ≤ stop then (call.tokens : ℚ) else 0) +
        tokensWithin calls start stop :=
  tally_cons (fun call : TokenBucketCall => start ≤ call.now ∧ call.now ≤ stop)
    (fun call => (call.tokens : ℚ)) call calls

theorem tokensWithin_eq_zero {calls : List TokenBucketCall} {start stop : ℚ}
    (h : ∀ call ∈ calls, stop < call.now) : tokensWithin calls start stop = 0 :=
  tally_eq_zero (fun call : TokenBucketCall => start ≤ call.now ∧ call.now ≤ stop) _
    fun call hmem hwithin => hwithin.2.not_gt (h call hmem)

theorem accepted_subset {calls : List TokenBucketCall} :
    ∀ call ∈ accepted limit refillRate stored calls, call ∈ calls := by
  induction calls generalizing stored with
  | nil => exact fun _ hmem => hmem
  | cons call calls ih =>
    intro later hmem
    rw [accepted] at hmem
    dsimp only at hmem
    split at hmem
    · rcases List.mem_cons.mp hmem with rfl | hmem
      · exact List.mem_cons_self
      · exact List.mem_cons_of_mem _ (ih later hmem)
    · exact List.mem_cons_of_mem _ (ih later hmem)

/-- The tokens that a valid bucket can give out up to a time. -/
def TokenBucket.credit (bucket : TokenBucket) (refillRate stop : ℚ) : ℚ :=
  bucket.tokens + bucket.tokensToAdd refillRate stop

theorem TokenBucket.Valid.credit_nonneg {bucket : TokenBucket} (h : bucket.Valid limit now)
    (hrate : 0 < refillRate) {stop : ℚ} (hstop : now ≤ stop) : 0 ≤ bucket.credit refillRate stop :=
  add_nonneg h.nonneg
    (Int.cast_nonneg (TokenBucket.tokensToAdd_nonneg hrate (h.refilled.trans hstop)))

theorem TokenBucket.credit_take (bucket : TokenBucket) (refillRate stop count : ℚ) :
    credit { bucket with tokens := bucket.tokens - count } refillRate stop =
      bucket.credit refillRate stop - count := by
  rw [credit, credit, tokensToAdd, tokensToAdd]
  ring

theorem TokenBucket.Valid.credit_settle {bucket : TokenBucket} (h : bucket.Valid limit now)
    (hrate : 0 < refillRate) (stop : ℚ) :
    (bucket.settle limit refillRate now).credit refillRate stop ≤ bucket.credit refillRate stop := by
  rcases TokenBucket.settle_cases bucket hrate h.refilled h.le_limit with ⟨hfull, heq⟩ | ⟨-, heq⟩
  · -- A full bucket drops the part of an interval that it has waited for.
    have hfloor : tokensToAdd ⟨limit, now⟩ refillRate stop + bucket.tokensToAdd refillRate now ≤
        bucket.tokensToAdd refillRate stop := by
      refine (Int.le_floor_add _ _).trans_eq (congrArg Int.floor ?_)
      dsimp only
      ring
    have hcast : (tokensToAdd ⟨limit, now⟩ refillRate stop + bucket.tokensToAdd refillRate now : ℚ) ≤
        bucket.tokensToAdd refillRate stop := by
      exact_mod_cast hfloor
    rw [heq, credit, credit]
    dsimp only
    linarith
  · rw [heq, credit, credit, tokensToAdd_shift bucket hrate]
    push_cast
    linarith

theorem TokenBucket.Valid.credit_settled {bucket : TokenBucket} (h : bucket.Valid limit now)
    (hlimit : 0 ≤ limit) (hrate : 0 < refillRate) (stop : ℚ) :
    (bucket.settle limit refillRate now).credit refillRate stop ≤
      limit + ⌊(stop - now) / refillRate⌋ := by
  have hsettled := h.settle hlimit hrate
  rcases TokenBucket.settle_cases bucket hrate h.refilled h.le_limit with ⟨-, heq⟩ | ⟨hroom, heq⟩
  · rw [heq]
    exact le_rfl
  · -- The rest of the time is worth less than the token that is missing.
    rw [heq] at hsettled ⊢
    obtain ⟨missing, hmissing⟩ := hsettled.whole
    dsimp only at hmissing
    have hone : 1 ≤ missing := by
      have hpos : (0 : ℚ) < missing := by linarith
      exact_mod_cast hpos
    have hone' : (1 : ℚ) ≤ missing := by exact_mod_cast hone
    have hrest : now < bucket.lastRefill + bucket.tokensToAdd refillRate now * refillRate +
        refillRate := lt_tokensToAdd hrate
    have hfloor : tokensToAdd ⟨bucket.tokens + bucket.tokensToAdd refillRate now,
        bucket.lastRefill + bucket.tokensToAdd refillRate now * refillRate⟩ refillRate stop ≤
        ⌊(stop - now) / refillRate⌋ + 1 := by
      rw [← Int.floor_add_one]
      refine Int.floor_le_floor ?_
      rw [div_add_one hrate.ne']
      refine div_le_div_of_nonneg_right ?_ hrate.le
      dsimp only
      linarith
    have hcast : (tokensToAdd ⟨bucket.tokens + bucket.tokensToAdd refillRate now,
        bucket.lastRefill + bucket.tokensToAdd refillRate now * refillRate⟩ refillRate stop : ℚ) ≤
        ⌊(stop - now) / refillRate⌋ + 1 := by
      exact_mod_cast hfloor
    rw [credit]
    dsimp only at hcast ⊢
    linarith

/-- From a valid bucket on, the accepted tokens stay within its credit. -/
theorem tokensWithin_le_credit {calls : List TokenBucketCall} {bucket : TokenBucket}
    (hlimit : 0 ≤ limit) (hrate : 0 < refillRate) (h : bucket.Valid limit now)
    (hstart : ∀ call ∈ calls, now ≤ call.now) (hsorted : calls.Pairwise (·.now ≤ ·.now))
    {start stop : ℚ} (hstop : now ≤ stop) :
    tokensWithin (accepted limit refillRate (some bucket) calls) start stop ≤
      bucket.credit refillRate stop := by
  induction calls generalizing now bucket with
  | nil => exact h.credit_nonneg hrate hstop
  | cons call calls ih =>
    obtain ⟨hfirst, hrest⟩ := List.pairwise_cons.mp hsorted
    rcases lt_or_ge stop call.now with hlate | hwithin
    · rw [tokensWithin_eq_zero]
      · exact h.credit_nonneg hrate hstop
      · intro later hmem
        rcases List.mem_cons.mp (accepted_subset later hmem) with rfl | hmem
        · exact hlate
        · exact hlate.trans_le (hfirst later hmem)
    · have hbucket := h.mono (hstart call List.mem_cons_self)
      have hrow : ValidRow limit call.now (some bucket) := by
        rintro _ ⟨⟩
        exact hbucket
      have hcredit := hbucket.credit_settle hrate stop
      rw [accepted]
      dsimp only
      by_cases haccepted : 0 ≤ (call.run limit refillRate (some bucket)).1.1
      · obtain ⟨hle, hnext⟩ := call.run_accepted hlimit hrate hrow haccepted
        have hlater := ih ((hrow.settled hlimit hrate).take hle) hfirst hrest hwithin
        have htaken : (if start ≤ call.now ∧ call.now ≤ stop then (call.tokens : ℚ) else 0) ≤
            call.tokens := by
          split
          · exact le_rfl
          · exact Nat.cast_nonneg _
        rw [TokenBucket.credit_take] at hlater
        rw [if_pos haccepted, tokensWithin_cons, hnext]
        change _ ≤ (bucket.settle limit refillRate call.now).credit refillRate stop - _ at hlater
        linarith
      · rw [if_neg haccepted, call.run_rejected hlimit hrate hrow haccepted]
        exact (ih (hrow.settled hlimit hrate) hfirst hrest hwithin).trans hcredit

theorem TokenBucketCall.run_settled (call : TokenBucketCall) (hlimit : 0 ≤ limit)
    (hrate : 0 < refillRate) (h : ValidRow limit call.now stored) :
    call.run limit refillRate (some (settled limit refillRate stored call.now)) =
      call.run limit refillRate stored := by
  have hrow : ValidRow limit call.now (some (settled limit refillRate stored call.now)) := by
    rintro _ ⟨⟩
    exact h.settled hlimit hrate
  rw [call.run_eq hlimit hrate hrow, call.run_eq hlimit hrate h,
    settled_settled hlimit hrate h le_rfl]

theorem tokensWithin_le {calls : List TokenBucketCall} (hlimit : 0 ≤ limit) (hrate : 0 < refillRate)
    (h : ValidRow limit now stored) (hstart : ∀ call ∈ calls, now ≤ call.now)
    (hsorted : calls.Pairwise (·.now ≤ ·.now)) {start stop : ℚ} (hle : start ≤ stop) :
    tokensWithin (accepted limit refillRate stored calls) start stop ≤
      limit + ⌊(stop - start) / refillRate⌋ := by
  have hbound : (0 : ℚ) ≤ ⌊(stop - start) / refillRate⌋ :=
    Int.cast_nonneg (Int.floor_nonneg.mpr (div_nonneg (sub_nonneg.mpr hle) hrate.le))
  induction calls generalizing now stored with
  | nil => exact add_nonneg hlimit hbound
  | cons call calls ih =>
    obtain ⟨hfirst, hrest⟩ := List.pairwise_cons.mp hsorted
    have hrow := h.mono (hstart call List.mem_cons_self)
    rcases lt_or_ge call.now start with hearly | hstarted
    · -- The interval has not begun.
      have hlater := ih (hrow.run hlimit hrate) hfirst hrest
      rw [accepted]
      dsimp only
      split
      · rw [tokensWithin_cons, if_neg fun hwithin => hearly.not_ge hwithin.1, zero_add]
        exact hlater
      · exact hlater
    · rcases lt_or_ge stop call.now with hlate | hwithin
      · rw [tokensWithin_eq_zero]
        · exact add_nonneg hlimit hbound
        · intro later hmem
          rcases List.mem_cons.mp (accepted_subset later hmem) with rfl | hmem
          · exact hlate
          · exact hlate.trans_le (hfirst later hmem)
      · -- The first call of the interval opens its credit.
        have hopened : accepted limit refillRate stored (call :: calls) =
            accepted limit refillRate (some (settled limit refillRate stored call.now))
              (call :: calls) := by
          rw [accepted, accepted, call.run_settled hlimit hrate hrow]
        have hcalls : ∀ later ∈ call :: calls, call.now ≤ later.now := by
          intro later hmem
          rcases List.mem_cons.mp hmem with rfl | hmem
          · exact le_rfl
          · exact hfirst later hmem
        have hfloor : (⌊(stop - call.now) / refillRate⌋ : ℚ) ≤ ⌊(stop - start) / refillRate⌋ :=
          Int.cast_le.mpr (Int.floor_le_floor
            (div_le_div_of_nonneg_right (sub_le_sub_left hstarted _) hrate.le))
        rw [hopened]
        calc tokensWithin (accepted limit refillRate
                (some (settled limit refillRate stored call.now)) (call :: calls)) start stop
            ≤ (settled limit refillRate stored call.now).credit refillRate stop :=
              tokensWithin_le_credit hlimit hrate (hrow.settled hlimit hrate) hcalls hsorted hwithin
          _ ≤ limit + ⌊(stop - call.now) / refillRate⌋ :=
              (hrow.start hlimit).credit_settled hlimit hrate stop
          _ ≤ limit + ⌊(stop - start) / refillRate⌋ := add_le_add_right hfloor limit

end Runs

/-! ## The rate bound -/

structure RateBound (limit refillRate : ℚ) (calls : List TokenBucketCall) : Prop where
  bounded : ∀ earlier later, calls = earlier ++ later → ∀ bucket,
    rowAfter limit refillRate none earlier = some bucket →
      0 ≤ bucket.tokens ∧ bucket.tokens ≤ limit
  accepts : ∀ earlier call later, calls = earlier ++ call :: later →
    (0 ≤ (call.run limit refillRate (rowAfter limit refillRate none earlier)).1.1 ↔
      call.tokens ≤ available limit refillRate (rowAfter limit refillRate none earlier) call.now)
  rejected : ∀ earlier call later, calls = earlier ++ call :: later →
    ¬0 ≤ (call.run limit refillRate (rowAfter limit refillRate none earlier)).1.1 →
      results limit refillRate (rowAfter limit refillRate none (earlier ++ [call])) later =
        results limit refillRate (rowAfter limit refillRate none earlier) later
  rate : ∀ start stop, start ≤ stop →
    tokensWithin (accepted limit refillRate none calls) start stop ≤
      limit + ⌊(stop - start) / refillRate⌋

section Promise

variable {limit refillRate : ℚ} {calls : List TokenBucketCall}

theorem validRow_none (now : ℚ) : ValidRow limit now none := by
  rintro bucket ⟨⟩

theorem validRow_rowAfter (hlimit : 0 ≤ limit) (hrate : 0 < refillRate)
    (hsorted : calls.Pairwise (·.now ≤ ·.now)) {later : ℚ}
    (hlater : ∀ call ∈ calls, call.now ≤ later) :
    ValidRow limit later (rowAfter limit refillRate none calls) := by
  cases calls with
  | nil => exact validRow_none later
  | cons call calls =>
    have hcalls : ∀ next ∈ call :: calls, call.now ≤ next.now := by
      intro next hmem
      rcases List.mem_cons.mp hmem with rfl | hmem
      · exact le_rfl
      · exact (List.pairwise_cons.mp hsorted).1 next hmem
    exact (validRow_none call.now).rowAfter hlimit hrate hcalls hsorted
      (hlater call List.mem_cons_self) hlater

/-- Calls in the order of their times keep to the rate. -/
theorem tokenBucket_rateBound (hlimit : 0 ≤ limit) (hrate : 0 < refillRate)
    (hsorted : calls.Pairwise (·.now ≤ ·.now)) : RateBound limit refillRate calls := by
  have hrow : ∀ earlier call later, calls = earlier ++ call :: later →
      ValidRow limit call.now (rowAfter limit refillRate none earlier) := by
    rintro earlier call later rfl
    obtain ⟨hearlier, -, hle⟩ := List.pairwise_append.mp hsorted
    exact validRow_rowAfter hlimit hrate hearlier
      fun before hmem => hle before hmem call List.mem_cons_self
  refine ⟨?_, fun earlier call later heq => ?_, fun earlier call later heq hrejected => ?_,
    fun start stop hle => ?_⟩
  · rintro earlier later rfl bucket hbucket
    have hearlier := (List.pairwise_append.mp hsorted).1
    rcases List.eq_nil_or_concat' earlier with rfl | ⟨before, last, rfl⟩
    · cases hbucket
    · have hlast : ∀ call ∈ before ++ [last], call.now ≤ last.now := by
        intro call hmem
        rcases List.mem_append.mp hmem with hmem | hmem
        · exact (List.pairwise_append.mp hearlier).2.2 call hmem last (List.mem_singleton_self last)
        · exact (List.mem_singleton.mp hmem) ▸ le_rfl
      have hvalid := validRow_rowAfter hlimit hrate hearlier hlast bucket hbucket
      exact ⟨hvalid.nonneg, hvalid.le_limit⟩
  · exact call.accepts_iff hlimit hrate (hrow earlier call later heq)
  · have hvalid := hrow earlier call later heq
    subst heq
    have hafter := (List.pairwise_cons.mp (List.pairwise_append.mp hsorted).2.1).1
    rw [rowAfter, List.foldl_append]
    exact results_rejected hlimit hrate hvalid hrejected hafter
  · cases calls with
    | nil =>
      exact add_nonneg hlimit
        (Int.cast_nonneg (Int.floor_nonneg.mpr (div_nonneg (sub_nonneg.mpr hle) hrate.le)))
    | cons call calls =>
      refine tokensWithin_le hlimit hrate (validRow_none call.now) (fun next hmem => ?_) hsorted hle
      rcases List.mem_cons.mp hmem with rfl | hmem
      · exact le_rfl
      · exact (List.pairwise_cons.mp hsorted).1 next hmem

/-- Three calls of two tokens on a bucket of three that regains one every hundred milliseconds:
the first and the last are accepted. -/
theorem tokenBucket_rateBound_three :
    accepted 3 100 none [⟨0, 2⟩, ⟨50, 2⟩, ⟨100, 2⟩] = [⟨0, 2⟩, ⟨100, 2⟩] ∧
      RateBound 3 100 [⟨0, 2⟩, ⟨50, 2⟩, ⟨100, 2⟩] :=
  ⟨by decide +kernel, tokenBucket_rateBound (by norm_num) (by norm_num) (by norm_num)⟩

end Promise

end FoundationDbEffect.Persistence
