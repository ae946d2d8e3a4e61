import Mathlib.Data.Nat.Basic
import ToneRelay.Proofs.Service.Openness

/-!
# How many requests are admitted in a minute

The settings give a number of requests in a minute, at least one. The bucket holds as many tokens,
and the time in which it regains one is a minute cut into as many parts, in whole milliseconds and
at least one.

`limit_kept_iff`: the service comes up for every number, and in the minute that follows a moment
without a token it keeps to a limit just if so many periods fill the minute. It keeps to the number
in the settings just if the number divides 60000 or is at least 60000: otherwise the period is cut,
and one request more can come in at least.

What a bucket still owes is the time at which it is full again. A request that is admitted puts it
off by a period, and none is admitted while it is too far away, which bounds the number of requests
(`admits_le`). Requests that come in step with the tokens attain the bound (`admits_range'`).
-/

namespace ToneRelay.Service

/-! ## Buckets -/

namespace Bucket

variable {b : Bucket}

/-- The bucket after some requests, by the times at which they come. -/
def after (b : Bucket) (times : List Nat) : Bucket :=
  times.foldl (fun b now => (b.take now).getD b) b

@[simp] theorem after_nil (b : Bucket) : b.after [] = b := rfl

@[simp] theorem after_cons (b : Bucket) (now : Nat) (times : List Nat) :
    b.after (now :: times) = ((b.take now).getD b).after times := rfl

@[simp] theorem after_append (b : Bucket) (times more : List Nat) :
    b.after (times ++ more) = (b.after times).after more := by simp [after]

/-- How many of some requests find a token. -/
def admits (b : Bucket) : List Nat → Nat
  | [] => 0
  | now :: times =>
    match b.take now with
    | some b => b.admits times + 1
    | none => b.admits times

/-- The time of the whole bucket is that of the first token and of those behind it. -/
theorem burst_mul (b : Bucket) : b.burst * b.period = (b.burst - 1) * b.period + b.period := by
  rw [← Nat.succ_mul, Nat.succ_eq_add_one, Nat.sub_add_cancel b.burst_pos]

/-- There is a token just if the bucket could be full again but for the tokens behind it. -/
theorem tokens_pos_iff {now : Nat} :
    0 < b.tokens now ↔ b.fullAt ≤ now + (b.burst - 1) * b.period := by
  have hperiod := b.period_pos
  have hburst := b.burst_mul
  unfold tokens
  rw [Nat.sub_pos_iff_lt, Nat.div_lt_iff_lt_mul hperiod]
  omega

theorem rates_take {b' : Bucket} {now : Nat} (h : b.take now = some b') :
    b'.burst = b.burst ∧ b'.period = b.period := by
  rcases Nat.eq_zero_or_pos (b.tokens now) with hempty | hpos
  · rw [take_of_empty hempty] at h
    cases h
  · rw [take_of_pos hpos] at h
    cases h
    exact ⟨rfl, rfl⟩

theorem rates_after (times : List Nat) :
    (b.after times).burst = b.burst ∧ (b.after times).period = b.period := by
  induction times generalizing b with
  | nil => exact ⟨rfl, rfl⟩
  | cons now times ih =>
    obtain ⟨hburst, hperiod⟩ := ih (b := (b.take now).getD b)
    have hstep : ((b.take now).getD b).burst = b.burst ∧
        ((b.take now).getD b).period = b.period := by
      cases h : b.take now with
      | none => exact ⟨rfl, rfl⟩
      | some b' => exact rates_take h
    exact ⟨hburst.trans hstep.1, hperiod.trans hstep.2⟩

/-! ### At most -/

/-- Each request that is admitted puts off the time at which the bucket is full, and the last of
them still found it near enough. -/
theorem fullAt_add_le {times : List Nat} {last : Nat} (hlast : ∀ now ∈ times, now ≤ last)
    (hsome : b.admits times ≠ 0) :
    b.fullAt + b.admits times * b.period ≤ last + b.burst * b.period := by
  induction times generalizing b with
  | nil => exact absurd rfl hsome
  | cons now times ih =>
    have hnow := hlast now List.mem_cons_self
    have hrest : ∀ u ∈ times, u ≤ last := fun u hu => hlast u (List.mem_cons_of_mem _ hu)
    rcases Nat.eq_zero_or_pos (b.tokens now) with hempty | hpos
    · have hsame : b.admits (now :: times) = b.admits times := by
        rw [admits, take_of_empty hempty]
      rw [hsame] at hsome ⊢
      exact ih hrest hsome
    · let b' : Bucket := { b with fullAt := max b.fullAt now + b.period }
      have hone : b.admits (now :: times) = b'.admits times + 1 := by
        rw [admits, take_of_pos hpos]
      have hnear := tokens_pos_iff.1 hpos
      have hburst := b.burst_mul
      rw [hone, Nat.succ_mul]
      by_cases hnone : b'.admits times = 0
      · rw [hnone, Nat.zero_mul]
        omega
      · have hlater : max b.fullAt now + b.period + b'.admits times * b.period ≤
            last + b.burst * b.period := ih hrest hnone
        have hmax := Nat.le_max_left b.fullAt now
        omega

/-- **At most one request a period**, from a moment without a token. -/
theorem admits_le {now last limit : Nat} {times : List Nat} (hempty : b.tokens now = 0)
    (hlast : ∀ u ∈ times, u ≤ last) (hlimit : last ≤ now + limit * b.period) :
    b.admits times ≤ limit := by
  by_contra hmore
  have hmore := Nat.lt_of_not_le hmore
  have hbound := fullAt_add_le hlast (Nat.ne_zero_of_lt hmore)
  have hmany : (limit + 1) * b.period ≤ b.admits times * b.period :=
    Nat.mul_le_mul_right _ hmore
  have hburst := b.burst_mul
  rw [Nat.succ_mul] at hmany
  have hnear : b.fullAt ≤ now + (b.burst - 1) * b.period := by omega
  exact absurd hempty (Nat.ne_of_gt (tokens_pos_iff.2 hnear))

/-! ### No fewer -/

/-- Requests at the moments at which a token is regained are all admitted. -/
theorem admits_range' {now : Nat} (h : b.fullAt = now + (b.burst - 1) * b.period) (k : Nat) :
    b.admits (List.range' now k b.period) = k := by
  induction k generalizing b now with
  | zero => rfl
  | succ k ih =>
    have hmax : max b.fullAt now = b.fullAt := Nat.max_eq_left (h ▸ Nat.le_add_right _ _)
    have hnext : max b.fullAt now + b.period = now + b.period + (b.burst - 1) * b.period := by
      rw [hmax, h, Nat.add_right_comm]
    rw [List.range'_succ, admits, take_of_pos (tokens_pos_iff.2 (Nat.le_of_eq h))]
    exact congrArg (· + 1) (ih (b := { b with fullAt := max b.fullAt now + b.period }) hnext)

/-- A full bucket is emptied by as many requests as it has tokens. -/
theorem fullAt_after_replicate (h : b.fullAt = 0) {k : Nat} (hk : k ≤ b.burst) :
    (b.after (List.replicate k 0)).fullAt = k * b.period := by
  induction k with
  | zero => exact h.trans (Nat.zero_mul _).symm
  | succ k ih =>
    obtain ⟨hburst, hperiod⟩ := b.rates_after (List.replicate k 0)
    have hfull := ih (Nat.le_of_succ_le hk)
    have hstep : b.after (List.replicate (k + 1) 0) =
        ((b.after (List.replicate k 0)).take 0).getD (b.after (List.replicate k 0)) := by
      simp [List.replicate_succ']
    have hpos : 0 < (b.after (List.replicate k 0)).tokens 0 := by
      rw [tokens_pos_iff, hfull, hburst, hperiod, Nat.zero_add]
      exact Nat.mul_le_mul_right _ (Nat.le_sub_one_of_lt hk)
    rw [hstep, take_of_pos hpos, Option.getD_some]
    show max (b.after (List.replicate k 0)).fullAt 0 + (b.after (List.replicate k 0)).period = _
    rw [hfull, hperiod, Nat.max_zero, Nat.succ_mul]

/-- The bucket after as many requests as it has room for tokens, all at the start. -/
def drained (b : Bucket) : Bucket := b.after (List.replicate b.burst 0)

theorem fullAt_drained (h : b.fullAt = 0) :
    b.drained.fullAt = b.period + (b.drained.burst - 1) * b.drained.period := by
  obtain ⟨hburst, hperiod⟩ := b.rates_after (List.replicate b.burst 0)
  unfold drained
  rw [fullAt_after_replicate h (Nat.le_refl _), hburst, hperiod, burst_mul, Nat.add_comm]

/-- The first token comes back a period later, and no earlier. -/
theorem tokens_drained (h : b.fullAt = 0) {now : Nat} (hnow : now < b.period) :
    b.drained.tokens now = 0 := by
  refine Nat.eq_zero_of_not_pos fun htoken => ?_
  rw [tokens_pos_iff, fullAt_drained h] at htoken
  omega

theorem admits_drained (h : b.fullAt = 0) (k : Nat) :
    b.drained.admits (List.range' b.period k b.period) = k := by
  have hall := admits_range' (fullAt_drained h) k
  rwa [drained, (b.rates_after _).2] at hall

end Bucket

/-! ## Answers of the service -/

/-- Entries without the wildcard are never refused. -/
theorem Origins.exists_ofEntries {given : Option (List String)} (h : wildcard ∉ given.getD []) :
    ∃ o, ofEntries given = .ok o := by
  unfold ofEntries
  dsimp only
  split
  · exact ⟨_, rfl⟩
  · rw [if_neg fun hmem => h (mem_usable.1 hmem).1]
    exact ⟨_, rfl⟩

namespace App

variable (a : App) (i : Incoming) (target : Target) (c : Circumstances)

theorem status_ofRefusal_ne (r : Refusal) : (Response.ofRefusal r).status ≠ 429 := by
  rw [Response.status_ofRefusal]
  cases r with
  | generator fault => cases fault <;> simp [Refusal.status]
  | _ => simp [Refusal.status]

theorem status_session_ne (name : String) : (a.session name).2.status ≠ 429 := by
  unfold session
  split
  · exact (by decide : 400 ≠ 429)
  · split
    · exact status_ofRefusal_ne _
    · dsimp only
      split
      · exact (by decide : 200 ≠ 429)
      · exact status_ofRefusal_ne _

theorem status_response?_ne (x : Exchange) :
    (x.response?.getD (.bare 500 [])).status ≠ 429 := by
  cases h : x.response? with
  | none => decide
  | some r =>
    unfold Exchange.response? at h
    split at h
    · cases h
      exact status_ofRefusal_ne _
    · obtain ⟨t, -, rfl⟩ := Option.map_eq_some_iff.1 h
      exact (by decide : 200 ≠ 429)

theorem status_serve_ne (r : Route) (query : List UInt8) (l : Stream.Transfer.Listener) :
    (a.serve r query c l).2.response.status ≠ 429 := by
  cases r with
  | page | health | measures => exact (by decide : 200 ≠ 429)
  | session name => exact status_session_ne a name
  | stream =>
    show (a.stream query c l).2.response.status ≠ 429
    unfold stream
    split
    · exact (by decide : 400 ≠ 429)
    · exact status_response?_ne _

/-- No route turns a request away. -/
theorem status_answer_ne : (a.answer i target c).2.response.status ≠ 429 := by
  unfold answer
  split
  · exact status_ofRefusal_ne _
  · split
    · exact status_serve_ne a c _ _ _
    · split
      · exact status_serve_ne a c _ _ _
      · exact (by decide : 405 ≠ 429)

@[simp] theorem bucket_serve (r : Route) (query : List UInt8) (l : Stream.Transfer.Listener) :
    (a.serve r query c l).1.bucket = a.bucket := by
  cases r with
  | page | health | measures => rfl
  | session name =>
    show (a.session name).1.bucket = a.bucket
    unfold session
    split
    · rfl
    · split <;> rfl
  | stream =>
    show (a.stream query c l).1.bucket = a.bucket
    unfold stream
    split <;> rfl

@[simp] theorem bucket_answer : (a.answer i target c).1.bucket = a.bucket := by
  unfold answer
  split
  · rfl
  · split
    · simp
    · split <;> simp

/-- A request takes a token, whatever it asks for. -/
@[simp] theorem bucket_handle : (a.handle i c).1.bucket = (a.bucket.take c.now).getD a.bucket := by
  unfold handle
  cases htoken : a.bucket.take c.now with
  | none => rfl
  | some bucket =>
    dsimp only
    split
    · rfl
    · exact bucket_answer _ i _ c

/-- A request is turned away just if it finds no token. -/
theorem status_handle_iff :
    (a.handle i c).2.response.status = 429 ↔ a.bucket.take c.now = none := by
  refine ⟨fun h => ?_, fun h => handle_limited h⟩
  cases htoken : a.bucket.take c.now with
  | none => rfl
  | some bucket =>
    unfold handle at h
    simp only [htoken] at h
    split at h
    · exact absurd h (by decide : 200 ≠ 429)
    · refine absurd ?_ (status_answer_ne { a with bucket := bucket } i (Target.parse i.target) c)
      rw [← h]
      split <;> rfl

/-! ## Many requests -/

/-- The answers to some requests, one after another. -/
def answers (a : App) : List (Incoming × Circumstances) → List Response
  | [] => []
  | r :: rs => (a.handle r.1 r.2).2.response :: (a.handle r.1 r.2).1.answers rs

/-- How many of some requests are not turned away. -/
def admitted (a : App) (rs : List (Incoming × Circumstances)) : Nat :=
  (a.answers rs).countP fun r => r.status ≠ 429

/-- The times at which some requests come. -/
def times (rs : List (Incoming × Circumstances)) : List Nat := rs.map (·.2.now)

@[simp] theorem times_nil : times [] = [] := rfl

@[simp] theorem times_cons (r : Incoming × Circumstances) (rs : List (Incoming × Circumstances)) :
    times (r :: rs) = r.2.now :: times rs := rfl

@[simp] theorem times_append (rs more : List (Incoming × Circumstances)) :
    times (rs ++ more) = times rs ++ times more := List.map_append

variable {a}

@[simp] theorem bucket_after (rs : List (Incoming × Circumstances)) :
    (a.after rs).bucket = a.bucket.after (times rs) := by
  induction rs generalizing a with
  | nil => rfl
  | cons r rs ih => simp [ih]

/-- What is admitted depends on the times alone. -/
theorem admitted_eq (rs : List (Incoming × Circumstances)) :
    a.admitted rs = a.bucket.admits (times rs) := by
  induction rs generalizing a with
  | nil => rfl
  | cons r rs ih =>
    have hrest : (a.handle r.1 r.2).1.admitted rs =
        ((a.bucket.take r.2.now).getD a.bucket).admits (times rs) := by
      rw [ih, bucket_handle]
    unfold admitted at hrest ⊢
    rw [answers, List.countP_cons, hrest]
    show _ = a.bucket.admits (r.2.now :: times rs)
    cases htoken : a.bucket.take r.2.now with
    | none =>
      have hstatus := (status_handle_iff a r.1 r.2).2 htoken
      rw [if_neg (by simpa using hstatus), Bucket.admits, htoken]
      rfl
    | some b =>
      have hstatus : (a.handle r.1 r.2).2.response.status ≠ 429 := by
        rw [Ne, status_handle_iff, htoken]
        exact Option.some_ne_none b
      rw [if_pos (by simpa using hstatus), Bucket.admits, htoken]
      rfl

/-- A minute in nanoseconds. -/
def minute : Nat := Bucket.minuteMillis * 1000000

/-- In the minute that follows a moment without a token no more than some number of requests are
admitted, whatever was asked before and whenever the requests come. -/
def KeepsTo (a : App) (limit : Nat) : Prop :=
  ∀ past now rs, (times (past ++ rs)).Pairwise (· ≤ ·) → (∀ u ∈ times past, u ≤ now) →
    (a.after past).bucket.tokens now = 0 → (∀ u ∈ times rs, now ≤ u ∧ u ≤ now + minute) →
    (a.after past).admitted rs ≤ limit

/-- A sign of life is asked for at some time. -/
def asked (now : Nat) : Incoming × Circumstances :=
  (⟨"GET", "/health", []⟩, { calm with now := now })

@[simp] theorem times_asked (us : List Nat) : times (us.map asked) = us := by
  induction us with
  | nil => rfl
  | cons u us ih => simp [ih, asked]

section
variable {n : UInt32} {limit : Nat}

theorem keepsTo_of_le (hbucket : a.bucket = .ofLimit n)
    (h : Bucket.minuteMillis ≤ limit * Bucket.periodMillis n) : a.KeepsTo limit := by
  intro past now rs _ _ hempty hrs
  have hperiod : (a.after past).bucket.period = Bucket.periodMillis n * 1000000 := by
    rw [bucket_after, (Bucket.rates_after _).2, hbucket]
    rfl
  rw [admitted_eq]
  refine Bucket.admits_le hempty (fun u hu => (hrs u hu).2) ?_
  rw [hperiod, ← Nat.mul_assoc]
  exact Nat.add_le_add_left (Nat.mul_le_mul_right _ h) now

/-- Requests in step with the tokens that come back all lie in a minute, if their number of periods
and some time more do. -/
theorem mem_step {b : Bucket} {u : Nat} (h : limit * b.period < minute)
    (hu : u ∈ List.range' b.period (limit + 1) b.period) :
    b.period - 1 ≤ u ∧ u ≤ b.period - 1 + minute := by
  rw [List.mem_range'] at hu
  obtain ⟨j, hj, rfl⟩ := hu
  have hle : b.period * j ≤ limit * b.period := by
    rw [Nat.mul_comm]
    exact Nat.mul_le_mul_right _ (Nat.le_of_lt_succ hj)
  omega

/-- A service that keeps to a number has no more than a minute in so many periods: otherwise its
bucket is emptied at once, and then a request comes whenever a token does. -/
theorem le_of_keepsTo (hbucket : a.bucket = .ofLimit n) (h : a.KeepsTo limit) :
    Bucket.minuteMillis ≤ limit * Bucket.periodMillis n := by
  by_contra hpart
  let b := Bucket.ofLimit n
  let past := List.replicate b.burst 0
  let beats := List.range' b.period (limit + 1) b.period
  have hafter : (a.after (past.map asked)).bucket = b.drained := by
    rw [bucket_after, times_asked, hbucket]
    rfl
  have hshort : limit * b.period < minute := by
    show limit * (Bucket.periodMillis n * 1000000) < _
    rw [← Nat.mul_assoc]
    exact Nat.mul_lt_mul_of_pos_right (Nat.lt_of_not_le hpart) (by decide)
  have hordered : (times (past.map asked ++ beats.map asked)).Pairwise (· ≤ ·) := by
    rw [times_append, times_asked, times_asked, List.pairwise_append]
    refine ⟨List.pairwise_replicate.2 (.inr (Nat.le_refl 0)),
      (List.pairwise_lt_range' b.period b.period_pos).imp Nat.le_of_lt, fun u hu v _ => ?_⟩
    rw [List.eq_of_mem_replicate hu]
    exact Nat.zero_le v
  have hpast : ∀ u ∈ times (past.map asked), u ≤ b.period - 1 := by
    intro u hu
    rw [times_asked] at hu
    rw [List.eq_of_mem_replicate hu]
    exact Nat.zero_le _
  have hempty : (a.after (past.map asked)).bucket.tokens (b.period - 1) = 0 := by
    rw [hafter]
    exact Bucket.tokens_drained rfl (Nat.sub_one_lt_of_lt b.period_pos)
  have hin : ∀ u ∈ times (beats.map asked), b.period - 1 ≤ u ∧ u ≤ b.period - 1 + minute := by
    rw [times_asked]
    exact fun u => mem_step hshort
  have hadmitted : (a.after (past.map asked)).admitted (beats.map asked) = limit + 1 := by
    rw [admitted_eq, times_asked, hafter]
    exact Bucket.admits_drained rfl _
  have hmost := h _ _ _ hordered hpast hempty hin
  rw [hadmitted] at hmost
  exact absurd hmost (Nat.not_succ_le_self limit)

/-- A service keeps to a number just if so many periods fill a minute. -/
theorem keepsTo_iff (hbucket : a.bucket = .ofLimit n) :
    a.KeepsTo limit ↔ Bucket.minuteMillis ≤ limit * Bucket.periodMillis n :=
  ⟨le_of_keepsTo hbucket, keepsTo_of_le hbucket⟩

end

/-- A number of equal parts in whole milliseconds, at least one each, fills a minute just if the
parts are not cut or there are enough of them. -/
theorem parts_fill_iff {n : Nat} (hn : 0 < n) :
    60000 ≤ n * max (60000 / n) 1 ↔ n ∣ 60000 ∨ 60000 ≤ n := by
  rcases Nat.lt_or_ge 60000 n with hmore | hless
  · rw [Nat.div_eq_of_lt hmore, Nat.max_eq_right (Nat.zero_le 1), Nat.mul_one]
    exact ⟨.inr, fun _ => Nat.le_of_lt hmore⟩
  · rw [Nat.max_eq_left (Nat.div_pos hless hn)]
    have hle := Nat.mul_div_le 60000 n
    constructor
    · exact fun h => .inl ⟨60000 / n, (Nat.le_antisymm hle h).symm⟩
    · rintro (hdvd | hge)
      · exact Nat.le_of_eq (Nat.mul_div_cancel' hdvd).symm
      · rw [Nat.le_antisymm hless hge]

/-! ## The service that comes up -/

/-- **The number of requests in a minute.** The service comes up for every number. It keeps to a
number if so many periods fill a minute, and so to the one in the settings just if that divides
60000 or is at least 60000. -/
theorem limit_kept_iff {s : Settings} (h : Origins.wildcard ∉ s.origins.getD []) :
    ∃ a, create s = .ok a ∧
      a.bucket.burst = max s.rateLimit.toNat 1 ∧ 0 < a.bucket.burst ∧
      a.bucket.period = max (60000 / max s.rateLimit.toNat 1) 1 * 1000000 ∧ 0 < a.bucket.period ∧
      (∀ limit, a.KeepsTo limit ↔ 60000 ≤ limit * max (60000 / max s.rateLimit.toNat 1) 1) ∧
      (a.KeepsTo (max s.rateLimit.toNat 1) ↔
        max s.rateLimit.toNat 1 ∣ 60000 ∨ 60000 ≤ max s.rateLimit.toNat 1) := by
  obtain ⟨o, ho⟩ := Origins.exists_ofEntries h
  obtain ⟨a, ha⟩ := exists_create ho
  have hbucket := (create_eq_ok ha).2
  have hkeeps (limit : Nat) :
      a.KeepsTo limit ↔ 60000 ≤ limit * max (60000 / max s.rateLimit.toNat 1) 1 :=
    keepsTo_iff hbucket
  refine ⟨a, ha, ?_, a.bucket.burst_pos, ?_, a.bucket.period_pos, hkeeps, ?_⟩
  · rw [hbucket]
    rfl
  · rw [hbucket]
    rfl
  · rw [hkeeps]
    exact parts_fill_iff (Nat.le_max_right _ _)

/-- A number that divides 60000 is kept to, and no smaller one is. -/
theorem limit_kept_250 :
    ∃ a, create { rateLimit := 250 } = .ok a ∧ a.bucket.period = 240000000 ∧
      a.KeepsTo 250 ∧ ¬ a.KeepsTo 249 := by
  obtain ⟨a, ha, -, -, hperiod, -, hkeeps, hlimit⟩ :=
    limit_kept_iff (s := { rateLimit := 250 }) List.not_mem_nil
  refine ⟨a, ha, hperiod, hlimit.2 (.inl (by decide)), fun h => ?_⟩
  exact absurd ((hkeeps 249).1 h) (by decide)

/-- For a number that does not, the period is cut to 145 milliseconds: a bucket that is emptied at
once has let 412 requests in before the minute is over. -/
theorem limit_exceeded_411 :
    ∃ a, create { rateLimit := 411 } = .ok a ∧
      (a.after ((List.replicate 411 0).map asked)).bucket.tokens 0 = 0 ∧
      (a.after ((List.replicate 411 0).map asked)).admitted
        ((List.replicate 206 29870000000 ++ List.replicate 206 59740000000).map asked) = 412 ∧
      59740000000 ≤ minute ∧ ¬ a.KeepsTo 411 := by
  obtain ⟨a, ha⟩ := exists_create (s := { rateLimit := 411 }) (o := .any) rfl
  have hbucket : a.bucket = .ofLimit 411 := (create_eq_ok ha).2
  refine ⟨a, ha, ?_, ?_, by decide, ?_⟩
  · rw [bucket_after, times_asked, hbucket]
    decide +kernel
  · rw [admitted_eq, bucket_after, times_asked, times_asked, hbucket]
    decide +kernel
  · rw [keepsTo_iff hbucket]
    decide

end App

end ToneRelay.Service
