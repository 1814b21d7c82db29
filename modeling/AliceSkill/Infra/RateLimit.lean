import Mathlib.Algebra.Order.Ring.Rat
import AliceSkill.Infra.World
import AliceSkill.Timing.Windows

/-!
# The rate limiter and the clock

`RedisRateLimiter` with the expiry of its counters.  A check increments the
counter of its bucket and gives it an expiry if it has none, both in one
transaction.  A sequence of checks admits what is among the first of its fixed
window, and the bounds on short intervals are those of the windows.
-/

namespace AliceSkill

open Text Effects Timing

/-- The value of a counter key, with the moment it expires when it has one. -/
structure Counter where
  count : ℕ
  expiresAt : Option ℚ
  deriving DecidableEq

/-- The value of a key at a moment: an expired key does not exist.  Time is exact
here, so a window is half-open and the key is gone at its deadline; on the clock
of Redis, which counts milliseconds, it is gone one millisecond later
(`Redis.Entry.alive`). -/
def liveAt (now : ℚ) (key : Option Counter) : Option Counter :=
  key.filter fun counter => counter.expiresAt.all fun expiresAt => now < expiresAt

/-- INCR, which creates the key or keeps its expiry. -/
def incr : Option Counter → Counter
  | none => ⟨1, none⟩
  | some counter => { counter with count := counter.count + 1 }

/-- EXPIRE with NX, which leaves an expiry in place. -/
def expireNx (now seconds : ℚ) (counter : Counter) : Counter :=
  if counter.expiresAt = none then { counter with expiresAt := some (now + seconds) }
  else counter

namespace RedisRateLimiter

/-- What the limiter reads from its settings and its keys, with the defaults of
`config.py`. -/
structure Config where
  rateLimitPerMinute : ℤ := 30
  rateLimitWindowSeconds : ℚ := 60

variable (cfg : Config)

/-- One check of a bucket: what it returns, and the key it leaves. -/
def check (now : ℚ) (key : Option Counter) : Except PyException Unit × Counter :=
  let counter :=
    expireNx now cfg.rateLimitWindowSeconds (incr (liveAt now key))
  if (counter.count : ℤ) > cfg.rateLimitPerMinute then
    (.error ⟨.httpException 429, none⟩, counter)
  else (.ok (), counter)

/-- The keys of all buckets, and the checks that have passed. -/
structure Log where
  keys : Str → Option Counter
  passed : List (Str × ℚ)

/-- No check yet. -/
def Log.empty : Log := ⟨fun _ => none, []⟩

/-- One check of one of the buckets. -/
def Log.check (log : Log) (bucket : Str) (now : ℚ) : Log :=
  let r := RedisRateLimiter.check cfg now (log.keys bucket)
  { keys := World.updateAt log.keys bucket (some r.2)
    passed := log.passed ++ if r.1.isOk then [(bucket, now)] else [] }

/-- Checks of the buckets, one after the other. -/
def Log.checks (log : Log) (calls : List (Str × ℚ)) : Log :=
  calls.foldl (fun log call => log.check cfg call.1 call.2) log

/-- The times of the checks of one bucket. -/
def timesOf (bucket : Str) (calls : List (Str × ℚ)) : List ℚ :=
  (calls.filter fun call => call.1 = bucket).map Prod.snd

/-- What a bucket's own checks leave: its key, and when they have passed. -/
structure BucketLog where
  key : Option Counter
  passed : List ℚ

def BucketLog.empty : BucketLog := ⟨none, []⟩

def BucketLog.check (log : BucketLog) (now : ℚ) : BucketLog :=
  let r := RedisRateLimiter.check cfg now log.key
  { key := some r.2
    passed := log.passed ++ if r.1.isOk then [now] else [] }

def BucketLog.checks (log : BucketLog) (times : List ℚ) : BucketLog :=
  times.foldl (BucketLog.check cfg) log

/-- The part of one bucket. -/
def Log.bucket (log : Log) (bucket : Str) : BucketLog :=
  ⟨log.keys bucket, timesOf bucket log.passed⟩

/-! ## Buckets -/

variable {cfg}

theorem timesOf_append (bucket : Str) (calls more : List (Str × ℚ)) :
    timesOf bucket (calls ++ more) = timesOf bucket calls ++ timesOf bucket more := by
  simp [timesOf]

theorem bucket_check_self (log : Log) (bucket : Str) (now : ℚ) :
    (log.check cfg bucket now).bucket bucket = (log.bucket bucket).check cfg now := by
  simp only [Log.check, Log.bucket, BucketLog.check, World.updateAt_same,
    timesOf_append]
  by_cases hok : (check cfg now (log.keys bucket)).1.isOk
  · simp [hok, timesOf]
  · simp [hok, timesOf]

theorem bucket_check_ne (log : Log) {bucket other : Str} (h : other ≠ bucket)
    (now : ℚ) : (log.check cfg other now).bucket bucket = log.bucket bucket := by
  simp only [Log.check, Log.bucket, timesOf_append, World.updateAt_ne _ _ h.symm]
  by_cases hok : (check cfg now (log.keys other)).1.isOk
  · simp [hok, timesOf, h]
  · simp [hok, timesOf]

/-- Only the checks of a bucket itself count for it. -/
theorem bucket_checks (log : Log) (bucket : Str) (calls : List (Str × ℚ)) :
    (log.checks cfg calls).bucket bucket =
      (log.bucket bucket).checks cfg (timesOf bucket calls) := by
  induction calls generalizing log with
  | nil => rfl
  | cons call calls ih =>
      have hrest := ih (log.check cfg call.1 call.2)
      rw [Log.checks, List.foldl_cons, ← Log.checks, hrest]
      by_cases hcall : call.1 = bucket
      · have htimes : timesOf bucket (call :: calls) =
            call.2 :: timesOf bucket calls := by
          simp [timesOf, hcall]
        rw [htimes, hcall, bucket_check_self]
        rfl
      · have htimes : timesOf bucket (call :: calls) = timesOf bucket calls := by
          simp [timesOf, hcall]
        rw [htimes, bucket_check_ne log hcall]

/-! ## Checks -/

variable {now expiresAt : ℚ} {key : Option Counter} {count : ℕ}

theorem check_live (cfg : Config)
    (h : liveAt now key = some ⟨count, some expiresAt⟩) :
    (check cfg now key).1.isOk = decide ((count + 1 : ℕ) ≤ cfg.rateLimitPerMinute) ∧
      (check cfg now key).2 = ⟨count + 1, some expiresAt⟩ := by
  simp only [check, h, incr, expireNx, reduceCtorEq, if_false]
  split_ifs with hlimit
  · simpa [Except.isOk, Except.toBool] using hlimit
  · simpa [Except.isOk, Except.toBool] using hlimit

theorem check_absent (cfg : Config) (h : liveAt now key = none) :
    (check cfg now key).1.isOk = decide ((1 : ℕ) ≤ cfg.rateLimitPerMinute) ∧
      (check cfg now key).2 = ⟨1, some (now + cfg.rateLimitWindowSeconds)⟩ := by
  simp only [check, h, incr, expireNx, if_true]
  split_ifs with hlimit
  · simpa [Except.isOk, Except.toBool] using hlimit
  · simpa [Except.isOk, Except.toBool] using hlimit

theorem of_liveAt {counter : Counter} (h : liveAt now key = some counter) :
    key = some counter ∧ ∀ expiresAt ∈ counter.expiresAt, now < expiresAt := by
  obtain ⟨hkey, hall⟩ := Option.filter_eq_some_iff.mp h
  refine ⟨hkey, fun expiresAt hexpires => ?_⟩
  rw [Option.mem_def.mp hexpires] at hall
  simpa using hall

theorem liveAt_of_lt (h : now < expiresAt) :
    liveAt now (some ⟨count, some expiresAt⟩) = some ⟨count, some expiresAt⟩ := by
  simp [liveAt, h]

theorem liveAt_of_le (h : expiresAt ≤ now) :
    liveAt now (some ⟨count, some expiresAt⟩) = none := by
  simp [liveAt, not_lt.mpr h]

/-- With `count` checks counted before them, as many pass as the limit leaves. -/
theorem take_check (limit : ℤ) (count : ℕ) (now : ℚ) (times : List ℚ) :
    (if decide ((count + 1 : ℕ) ≤ limit) then [now] else []) ++
        times.take (limit.toNat - (count + 1)) =
      (now :: times).take (limit.toNat - count) := by
  by_cases h : (count + 1 : ℕ) ≤ limit
  · have hsucc : limit.toNat - count = limit.toNat - (count + 1) + 1 := by omega
    rw [decide_eq_true h, if_pos rfl, hsucc, List.take_succ_cons,
      List.singleton_append]
  · have hzero : limit.toNat - count = 0 := by omega
    have hzero' : limit.toNat - (count + 1) = 0 := by omega
    rw [decide_eq_false h, hzero, hzero']
    rfl

/-- Checks on a counter that does not expire meanwhile. -/
theorem checks_live (times passed : List ℚ) (h : ∀ t ∈ times, t < expiresAt) :
    BucketLog.checks cfg ⟨some ⟨count, some expiresAt⟩, passed⟩ times =
      ⟨some ⟨count + times.length, some expiresAt⟩,
        passed ++ times.take (cfg.rateLimitPerMinute.toNat - count)⟩ := by
  induction times generalizing count passed with
  | nil => simp [BucketLog.checks]
  | cons now times ih =>
      have hlive : liveAt now (some ⟨count, some expiresAt⟩) =
          some ⟨count, some expiresAt⟩ :=
        liveAt_of_lt (h now List.mem_cons_self)
      have hcheck := check_live cfg hlive
      rw [BucketLog.checks, List.foldl_cons, ← BucketLog.checks, BucketLog.check]
      simp only [hcheck]
      rw [ih _ fun t ht => h t (List.mem_cons_of_mem now ht), List.append_assoc,
        take_check, List.length_cons, Nat.add_right_comm, Nat.add_assoc]

/-- A check that creates the counter, followed by checks it does not expire
before. -/
theorem checks_window {log : BucketLog} (h : liveAt now log.key = none)
    {times : List ℚ} (htimes : ∀ t ∈ times, t < now + cfg.rateLimitWindowSeconds) :
    log.checks cfg (now :: times) =
      ⟨some ⟨1 + times.length, some (now + cfg.rateLimitWindowSeconds)⟩,
        log.passed ++ (now :: times).take cfg.rateLimitPerMinute.toNat⟩ := by
  have hcheck := check_absent cfg h
  have htake := take_check cfg.rateLimitPerMinute 0 now times
  rw [Nat.zero_add, Nat.sub_zero] at htake
  rw [BucketLog.checks, List.foldl_cons, ← BucketLog.checks, BucketLog.check]
  simp only [hcheck]
  rw [checks_live _ _ htimes, List.append_assoc, htake]

theorem checks_append (log : BucketLog) (times more : List ℚ) :
    log.checks cfg (times ++ more) = (log.checks cfg times).checks cfg more :=
  List.foldl_append

/-- Checks that do not begin on a live counter pass as the fixed windows
admit. -/
theorem passed_checks (times : List ℚ) {log : BucketLog}
    (h : ∀ now ∈ times.head?, liveAt now log.key = none) :
    (log.checks cfg times).passed =
      log.passed ++ admitted cfg.rateLimitPerMinute.toNat cfg.rateLimitWindowSeconds
        times := by
  induction times using windows.induct (w := cfg.rateLimitWindowSeconds)
      generalizing log with
  | case1 => simp [BucketLog.checks]
  | case2 now times ih =>
      let window := times.takeWhile (· < now + cfg.rateLimitWindowSeconds)
      let rest := times.dropWhile (· < now + cfg.rateLimitWindowSeconds)
      have hcut : now :: times = (now :: window) ++ rest := by
        simp [window, rest]
      have hwindow : ∀ t ∈ window, t < now + cfg.rateLimitWindowSeconds := by
        intro t ht
        simpa using List.mem_takeWhile_imp ht
      have hrest : ∀ t ∈ rest.head?, now + cfg.rateLimitWindowSeconds ≤ t := by
        intro t ht
        have hnot := List.head?_dropWhile_not
          (fun t => decide (t < now + cfg.rateLimitWindowSeconds)) times
        rw [show times.dropWhile _ = rest from rfl, ht] at hnot
        simpa using hnot
      have hfirst := checks_window (h now rfl) hwindow
      rw [hcut, checks_append, hfirst, ih fun t ht => liveAt_of_le (hrest t ht),
        ← hcut, admitted_cons, List.append_assoc]

/-! ## The store without a clock -/

/-- The checks that a live counter has counted. -/
def counted (now : ℚ) (key : Option Counter) : ℕ :=
  ((liveAt now key).map Counter.count).getD 0

theorem count_expireNx_incr (now seconds : ℚ) (key : Option Counter) :
    (expireNx now seconds (incr (liveAt now key))).count = counted now key + 1 := by
  simp only [expireNx, counted]
  cases liveAt now key with
  | none => split_ifs <;> rfl
  | some counter => split_ifs <;> rfl

/-- A check ends and counts as the call on the stores does that knows no expiry,
as long as the counter lives. -/
theorem check_eq_exec {settings : Settings} {a : Answer} {w : World} {bucket : Str}
    (hlimit : settings.rateLimitPerMinute = cfg.rateLimitPerMinute)
    (hcount : w.rateCount bucket = counted now key) :
    (check cfg now key).1 =
        ((PortCall.checkRateLimit bucket).exec settings a w).1 ∧
      (check cfg now key).2.count =
        ((PortCall.checkRateLimit bucket).exec settings a w).2.rateCount bucket := by
  have hnext := count_expireNx_incr now cfg.rateLimitWindowSeconds key
  rw [← hcount] at hnext
  simp only [check, PortCall.exec, hnext, hlimit]
  split_ifs
  · exact ⟨rfl, hnext.trans (World.updateAt_same _ _ _).symm⟩
  · exact ⟨rfl, hnext.trans (World.updateAt_same _ _ _).symm⟩

/-! ## Counters -/

/-- Where the counter of a bucket comes from: the check at `created` found no
live counter, and those after it have been before the expiry. -/
structure Creation (cfg : Config) (times : List ℚ) (created : ℚ)
    (counter : Counter) (before after : List ℚ) : Prop where
  times_eq : times = before ++ created :: after
  absent : liveAt created (BucketLog.empty.checks cfg before).key = none
  within : ∀ t ∈ after, t < created + cfg.rateLimitWindowSeconds
  counter_eq : counter =
    ⟨1 + after.length, some (created + cfg.rateLimitWindowSeconds)⟩

/-- The key of a bucket always has an origin. -/
theorem exists_creation (cfg : Config) (times : List ℚ) {counter : Counter}
    (h : (BucketLog.empty.checks cfg times).key = some counter) :
    ∃ created before after, Creation cfg times created counter before after := by
  induction times using List.reverseRecOn generalizing counter with
  | nil => cases h
  | append_singleton times now ih =>
      rw [checks_append] at h
      change some _ = some counter at h
      cases hlive : liveAt now (BucketLog.empty.checks cfg times).key with
      | none =>
          refine ⟨now, times, [], by simp, hlive, by simp, ?_⟩
          rw [(check_absent cfg hlive).2] at h
          exact (Option.some.inj h).symm
      | some old =>
          obtain ⟨hkey, hbefore⟩ := of_liveAt hlive
          obtain ⟨created, before, after, horigin⟩ := ih hkey
          have hnow : now < created + cfg.rateLimitWindowSeconds := by
            apply hbefore
            rw [horigin.counter_eq]
            rfl
          rw [horigin.counter_eq] at hlive
          rw [(check_live cfg hlive).2] at h
          refine ⟨created, before, after ++ [now], ?_, horigin.absent, ?_, ?_⟩
          · rw [horigin.times_eq, List.append_assoc, List.cons_append]
          · intro t ht
            rcases List.mem_append.mp ht with ht | ht
            · exact horigin.within t ht
            · rwa [List.mem_singleton.mp ht]
          · rw [← Option.some.inj h, List.length_append, List.length_singleton,
              Nat.add_assoc]

/-- Once a counter has been created, a check that finds it live leaves its
expiry, whether the check passes or not. -/
theorem expiresAt_check {counter : Counter} (h : liveAt now key = some counter)
    (hexpires : counter.expiresAt.isSome) :
    (check cfg now key).2.expiresAt = counter.expiresAt := by
  obtain ⟨expiresAt, hsome⟩ := Option.isSome_iff_exists.mp hexpires
  obtain ⟨count, _⟩ := counter
  cases hsome
  rw [(check_live cfg h).2]

/-- What the limiter guarantees for a bucket, after checks at the given times. -/
structure LimitsRate (cfg : Config) (times : List ℚ) (log : BucketLog) : Prop where
  /-- At most twice the limit passes in an interval as long as the window. -/
  sound : ∀ closedAtStart start,
    log.passed.countP (halfOpen closedAtStart cfg.rateLimitWindowSeconds start) ≤
      2 * cfg.rateLimitPerMinute
  /-- Nothing is rejected when no such interval has more checks than the limit. -/
  complete : ∀ closedAtStart,
    (∀ start,
      times.countP (halfOpen closedAtStart cfg.rateLimitWindowSeconds start) ≤
        cfg.rateLimitPerMinute) →
    log.passed = times
  /-- No check prolongs a window. -/
  steady : ∀ now counter, liveAt now log.key = some counter →
    (check cfg now log.key).2.expiresAt = counter.expiresAt
  /-- A counter lives for the window from the check that has created it. -/
  bounded : ∀ counter, log.key = some counter →
    ∃ created before after, Creation cfg times created counter before after

theorem limitsRate (cfg : Config) (hlimit : 1 ≤ cfg.rateLimitPerMinute)
    (hwindow : 0 < cfg.rateLimitWindowSeconds) (calls : List (Str × ℚ))
    (bucket : Str) (hcalls : (timesOf bucket calls).Pairwise (· ≤ ·)) :
    LimitsRate cfg (timesOf bucket calls)
      ((Log.empty.checks cfg calls).bucket bucket) := by
  have hlog : (Log.empty.checks cfg calls).bucket bucket =
      BucketLog.empty.checks cfg (timesOf bucket calls) :=
    bucket_checks Log.empty bucket calls
  have hpassed : (BucketLog.empty.checks cfg (timesOf bucket calls)).passed =
      admitted cfg.rateLimitPerMinute.toNat cfg.rateLimitWindowSeconds
        (timesOf bucket calls) :=
    passed_checks (timesOf bucket calls) fun _ _ => rfl
  rw [hlog]
  refine ⟨fun closedAtStart start => ?_, fun closedAtStart hfew => ?_,
    fun now counter hlive => ?_, fun counter hkey => ?_⟩
  · rw [hpassed]
    have hle := countP_admitted_le cfg.rateLimitPerMinute.toNat hwindow hcalls
      (isBrief_halfOpen closedAtStart cfg.rateLimitWindowSeconds start)
    omega
  · rw [hpassed]
    apply admitted_eq_self_of_countP_le closedAtStart hwindow hcalls
    intro start
    have hle := hfew start
    omega
  · obtain ⟨_, _, _, horigin⟩ := exists_creation cfg _ (of_liveAt hlive).1
    apply expiresAt_check hlive
    rw [horigin.counter_eq]
    rfl
  · exact exists_creation cfg _ hkey

/-- Two checks a window apart and one in between, with room for one each. -/
theorem limitsRate_three :
    LimitsRate { rateLimitPerMinute := 1 } [0, 59, 60]
      ((Log.empty.checks { rateLimitPerMinute := 1 }
        [([], 0), ([], 59), ([], 60)]).bucket []) :=
  limitsRate { rateLimitPerMinute := 1 } (by decide) (by decide +kernel)
    [([], 0), ([], 59), ([], 60)] [] (by decide +kernel)

end RedisRateLimiter

end AliceSkill
