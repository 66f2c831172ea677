import PadMule.Lib.FileMap

/-
  `mule-kad/src/hardening.rs`: the limiter of requests from one address.

  Requests of an address are counted from the start of its window, are ignored past the soft limit
  and banned past the hard one. Only so many addresses are tracked: in front of a new one what has
  lapsed is dropped, and where that makes no room the request is allowed and leaves no trace.
  `flood_limiter` is the law over every sequence of requests. A ban counts from the request that
  starts it; a request that is answered with it does not extend it (`ban_not_extended`).
  Times and durations are nanoseconds.
-/

namespace PadMule.Kad.Flood

open FileMap

inductive FloodVerdict where
  | allow
  | ignore
  | ban
deriving DecidableEq

structure Entry where
  /-- A `u32` that wraps. -/
  count : UInt32
  windowStart : Nat
  bannedUntil : Option Nat
deriving DecidableEq

def MAX_TRACKED_IPS : Nat := 4096

structure FloodTracker where
  window : Nat
  softLimit : UInt32
  hardLimit : UInt32
  banDuration : Nat
  entries : Dir UInt32 Entry

namespace FloodTracker

def new (window : Nat) (softLimit hardLimit : UInt32) (banDuration : Nat) : FloodTracker :=
  ⟨window, softLimit, hardLimit, banDuration, []⟩

def tracked (f : FloodTracker) : Nat := f.entries.length

/-- The ban of an entry is not over. -/
def bans (now : Nat) (e : Entry) : Bool := e.bannedUntil.any fun u => now < u

def isBanned (f : FloodTracker) (ip : UInt32) (now : Nat) : Bool :=
  (get f.entries ip).any (bans now)

def evictExpired (f : FloodTracker) (now : Nat) : FloodTracker :=
  { f with entries := f.entries.filter fun e => bans now e.2 || now - e.2.windowStart ≤ f.window }

/-- The entry in the window of a request, which may be a new one. -/
def slide (f : FloodTracker) (e : Entry) (now : Nat) : Entry :=
  if f.window < now - e.windowStart then { e with count := 0, windowStart := now } else e

def count (f : FloodTracker) (e : Entry) (now : Nat) : FloodVerdict × Entry :=
  let e := f.slide e now
  let e := { e with count := e.count + 1 }
  if f.hardLimit < e.count then (.ban, { e with bannedUntil := some (now + f.banDuration) })
  else if f.softLimit < e.count then (.ignore, e)
  else (.allow, e)

/-- A request of a tracked address; once its ban is over it starts afresh. -/
def hit (f : FloodTracker) (e : Entry) (now : Nat) : FloodVerdict × Entry :=
  match e.bannedUntil with
  | some u => if now < u then (.ban, e) else f.count ⟨0, now, none⟩ now
  | none => f.count e now

/-- A request of an address that is tracked from now on. -/
def judge (f : FloodTracker) (ip : UInt32) (now : Nat) : FloodVerdict × FloodTracker :=
  let r := f.hit ((get f.entries ip).getD ⟨0, now, none⟩) now
  (r.1, { f with entries := write f.entries ip r.2 })

def record (f : FloodTracker) (ip : UInt32) (now : Nat) : FloodVerdict × FloodTracker :=
  if MAX_TRACKED_IPS ≤ f.tracked ∧ get f.entries ip = none then
    let f := f.evictExpired now
    if MAX_TRACKED_IPS ≤ f.tracked then (.allow, f) else f.judge ip now
  else f.judge ip now

end FloodTracker

/-! ## Runs -/

/-- A request: its address and its time. -/
abbrev Request := UInt32 × Nat

namespace FloodTracker

def run (f : FloodTracker) (requests : List Request) : FloodTracker :=
  requests.foldl (fun f q => (f.record q.1 q.2).2) f

/-- The verdict on a request behind others. -/
def verdict (f : FloodTracker) (earlier : List Request) (q : Request) : FloodVerdict :=
  ((f.run earlier).record q.1 q.2).1

theorem run_concat (f : FloodTracker) (requests : List Request) (q : Request) :
    f.run (requests ++ [q]) = ((f.run requests).record q.1 q.2).2 := by
  rw [run, List.foldl_append]
  rfl

theorem run_cons (f : FloodTracker) (q : Request) (requests : List Request) :
    f.run (q :: requests) = (f.record q.1 q.2).2.run requests := rfl

/-! ## One request -/

variable {f : FloodTracker} {ip : UInt32} {now : Nat}

/-- A request of an address that is not tracked, while no place is free, leaves nothing behind;
    any other is counted on the entry there is, or a new one. -/
theorem record_cases (f : FloodTracker) (ip : UInt32) (now : Nat) :
    (get f.entries ip = none ∧ f.record ip now = (.allow, f.evictExpired now)) ∨
      (get f.entries ip = none ∧ (f.evictExpired now).tracked < MAX_TRACKED_IPS ∧
        f.record ip now = (f.evictExpired now).judge ip now) ∨
      ((f.tracked < MAX_TRACKED_IPS ∨ get f.entries ip ≠ none) ∧
        f.record ip now = f.judge ip now) := by
  unfold record
  dsimp only
  split_ifs with hfull hstill
  · exact .inl ⟨hfull.2, rfl⟩
  · exact .inr (.inl ⟨hfull.2, Nat.not_le.mp hstill, rfl⟩)
  · refine .inr (.inr ⟨?_, rfl⟩)
    by_contra hnot
    rw [not_or, Nat.not_lt, not_not] at hnot
    exact hfull hnot

theorem tracked_judge_le (h : f.tracked < MAX_TRACKED_IPS ∨
    (f.tracked ≤ MAX_TRACKED_IPS ∧ get f.entries ip ≠ none)) :
    (f.judge ip now).2.tracked ≤ MAX_TRACKED_IPS := by
  show (write f.entries ip _).length ≤ _
  rcases h with hlt | ⟨hle, hknown⟩
  · exact (length_write_le _ _ _).trans hlt
  · exact (length_write_of_mem (mem_names_iff.mpr hknown) _).trans hle

theorem tracked_evictExpired_le (f : FloodTracker) (now : Nat) :
    (f.evictExpired now).tracked ≤ f.tracked := List.length_filter_le _ _

theorem tracked_record_le (h : f.tracked ≤ MAX_TRACKED_IPS) (ip : UInt32) (now : Nat) :
    (f.record ip now).2.tracked ≤ MAX_TRACKED_IPS := by
  rcases f.record_cases ip now with ⟨-, heq⟩ | ⟨-, hroom, heq⟩ | ⟨hroom, heq⟩
  · rw [heq]
    exact (tracked_evictExpired_le f now).trans h
  · rw [heq]
    exact tracked_judge_le (.inl hroom)
  · rw [heq]
    exact tracked_judge_le (hroom.imp_right fun hknown => ⟨h, hknown⟩)

theorem tracked_run_le (h : f.tracked ≤ MAX_TRACKED_IPS) (requests : List Request) :
    (f.run requests).tracked ≤ MAX_TRACKED_IPS := by
  induction requests generalizing f with
  | nil => exact h
  | cons q requests ih => exact ih (tracked_record_le h q.1 q.2)

/-! ## A ban lasts -/

/-- The address is banned until then. -/
def BannedUntil (f : FloodTracker) (ip : UInt32) (u : Nat) : Prop :=
  ∃ e, get f.entries ip = some e ∧ e.bannedUntil = some u

/-- No request drops a ban that is not over, not even one of the address itself. -/
theorem BannedUntil.record {u : Nat} (h : f.BannedUntil ip u) (ip' : UInt32) (hnow : now < u) :
    (f.record ip' now).2.BannedUntil ip u := by
  obtain ⟨e, hget, hbanned⟩ := h
  have hlive : bans now e = true := by
    rw [bans, hbanned]
    exact decide_eq_true hnow
  have hevict : get (f.evictExpired now).entries ip = some e :=
    get_filter hget (by rw [hlive, Bool.true_or])
  have hjudge (g : FloodTracker) (hg : get g.entries ip = some e) :
      (g.judge ip' now).2.BannedUntil ip u := by
    refine ⟨e, ?_, hbanned⟩
    show get (write g.entries ip' _) ip = some e
    rw [get_write]
    split_ifs with heq
    · rw [← heq, hg, Option.getD_some, hit, hbanned]
      dsimp only
      rw [if_pos hnow]
    · exact hg
  rcases f.record_cases ip' now with ⟨-, heq⟩ | ⟨-, -, heq⟩ | ⟨-, heq⟩
  · rw [heq]
    exact ⟨e, hevict, hbanned⟩
  · rw [heq]
    exact hjudge _ hevict
  · rw [heq]
    exact hjudge f hget

theorem BannedUntil.run {u : Nat} (h : f.BannedUntil ip u) {requests : List Request}
    (hnow : ∀ q ∈ requests, q.2 < u) : (f.run requests).BannedUntil ip u := by
  induction requests generalizing f with
  | nil => exact h
  | cons q requests ih =>
    obtain ⟨hq, hrest⟩ := List.forall_mem_cons.mp hnow
    exact ih (h.record q.1 hq) hrest

theorem BannedUntil.verdict {u : Nat} (h : f.BannedUntil ip u) (hnow : now < u) :
    (f.record ip now).1 = .ban := by
  obtain ⟨e, hget, hbanned⟩ := h
  have hjudge : (f.judge ip now).1 = .ban := by
    rw [judge, hget, Option.getD_some, hit, hbanned]
    dsimp only
    rw [if_pos hnow]
  rcases f.record_cases ip now with ⟨hnone, -⟩ | ⟨hnone, -, -⟩ | ⟨-, heq⟩
  · exact absurd (hget.symm.trans hnone) (by simp)
  · exact absurd (hget.symm.trans hnone) (by simp)
  · rw [heq]
    exact hjudge

/-- A ban is answered because one is running, or starts with the answer. -/
theorem hit_ban {e : Entry} (h : (f.hit e now).1 = .ban) :
    (bans now e = true ∧ (f.hit e now).2 = e) ∨
      (f.hit e now).2.bannedUntil = some (now + f.banDuration) := by
  have hcount (e : Entry) (hban : (f.count e now).1 = .ban) :
      (f.count e now).2.bannedUntil = some (now + f.banDuration) := by
    unfold count at hban ⊢
    dsimp only at hban ⊢
    split_ifs at hban ⊢
    all_goals rfl
  cases hbanned : e.bannedUntil with
  | none =>
    simp only [hit, hbanned] at h ⊢
    exact .inr (hcount e h)
  | some u =>
    simp only [hit, hbanned] at h ⊢
    split_ifs at h ⊢ with hlive
    · refine .inl ⟨?_, rfl⟩
      rw [bans, hbanned]
      exact decide_eq_true hlive
    · exact .inr (hcount _ h)

/-- Who is answered with a ban is banned: for the whole time, if the ban starts there. -/
theorem bannedUntil_of_ban (h : (f.record ip now).1 = .ban) :
    ∃ u, (f.record ip now).2.BannedUntil ip u ∧
      (f.isBanned ip now = false → u = now + f.banDuration) := by
  have hjudge (g : FloodTracker) (hban : (g.judge ip now).1 = .ban) :
      ∃ u, (g.judge ip now).2.BannedUntil ip u ∧
        (g.isBanned ip now = false → u = now + g.banDuration) := by
    have hstored : get (g.judge ip now).2.entries ip =
        some (g.hit ((get g.entries ip).getD ⟨0, now, none⟩) now).2 := by
      show get (write g.entries ip _) ip = _
      rw [get_write, if_pos rfl]
    rcases hit_ban hban with ⟨hlive, hsame⟩ | hnew
    · rw [hsame] at hstored
      cases hget : get g.entries ip with
      | none =>
        rw [hget] at hlive
        cases hlive
      | some e =>
        rw [hget, Option.getD_some] at hlive hstored
        obtain ⟨u, hu⟩ : ∃ u, e.bannedUntil = some u := by
          rw [bans, Option.any_eq_true] at hlive
          exact hlive.imp fun u hu => hu.1
        refine ⟨u, ⟨e, hstored, hu⟩, fun hfree => ?_⟩
        rw [isBanned, hget, Option.any_some, hlive] at hfree
        cases hfree
    · exact ⟨_, ⟨_, hstored, hnew⟩, fun _ => rfl⟩
  rcases f.record_cases ip now with ⟨-, heq⟩ | ⟨hnone, -, heq⟩ | ⟨-, heq⟩
  · rw [heq] at h
    cases h
  · rw [heq] at h ⊢
    obtain ⟨u, hbanned, hnew⟩ := hjudge _ h
    refine ⟨u, hbanned, fun _ => hnew ?_⟩
    rw [isBanned, evictExpired, get_filter_eq_none hnone]
    rfl
  · rw [heq] at h ⊢
    exact hjudge f h

/-! ## No false positive -/

/-- The requests of an address from a time on. -/
def since (ip : UInt32) (start : Nat) (requests : List Request) : Nat :=
  requests.countP fun q => q.1 = ip ∧ start ≤ q.2

/-- The requests of an address in a closed interval. -/
def within (ip : UInt32) (start stop : Nat) (requests : List Request) : Nat :=
  requests.countP fun q => q.1 = ip ∧ start ≤ q.2 ∧ q.2 ≤ stop

/-- What an entry of the address counts: no ban, and no more requests than there were. -/
structure Counts (ip : UInt32) (requests : List Request) (e : Entry) : Prop where
  free : e.bannedUntil = none
  count_le : e.count.toNat ≤ since ip e.windowStart requests
  start : ∃ q ∈ requests, q.2 = e.windowStart

def Calm (f : FloodTracker) (ip : UInt32) (requests : List Request) : Prop :=
  ∀ e, (ip, e) ∈ f.entries → Counts ip requests e

theorem since_concat (ip : UInt32) (start : Nat) (requests : List Request) (q : Request) :
    since ip start (requests ++ [q]) =
      since ip start requests + (if q.1 = ip ∧ start ≤ q.2 then 1 else 0) := by
  unfold since
  rw [List.countP_append, List.countP_singleton]
  simp only [decide_eq_true_eq]

theorem Counts.concat {requests : List Request} {e : Entry} (h : Counts ip requests e)
    (q : Request) : Counts ip (requests ++ [q]) e where
  free := h.free
  count_le := h.count_le.trans (since_concat ip _ requests q ▸ Nat.le_add_right _ _)
  start := h.start.imp fun _ hq => ⟨List.mem_append_left _ hq.1, hq.2⟩

/-- Nothing is later than `now`, so what is in the window is all there is since its start. -/
theorem since_le_within {requests : List Request} {start stop : Nat}
    (hpast : ∀ q ∈ requests, q.2 ≤ now) (hstop : now ≤ stop) :
    since ip start requests ≤ within ip start stop requests := by
  refine List.countP_mono_left fun q hq h => ?_
  rw [decide_eq_true_eq] at h ⊢
  exact ⟨h.1, h.2, (hpast q hq).trans hstop⟩

/-- A request in the window of its entry: it is allowed and counted. -/
theorem counted {e : Entry} {requests : List Request} (hlimits : f.softLimit ≤ f.hardLimit)
    (hfree : e.bannedUntil = none) (hcount : e.count.toNat ≤ since ip e.windowStart requests)
    (hstart : e.windowStart ≤ now) (hwindow : now ≤ e.windowStart + f.window)
    (hknown : ∃ q ∈ requests ++ [(ip, now)], q.2 = e.windowStart)
    (hpast : ∀ q ∈ requests, q.2 ≤ now)
    (hfew : ∀ s, within ip s (s + f.window) (requests ++ [(ip, now)]) ≤ f.softLimit.toNat) :
    (¬f.hardLimit < e.count + 1 ∧ ¬f.softLimit < e.count + 1) ∧
      Counts ip (requests ++ [(ip, now)]) { e with count := e.count + 1 } := by
  have hpast' : ∀ q ∈ requests ++ [(ip, now)], q.2 ≤ now := by
    intro q hq
    rcases List.mem_append.mp hq with hq | hq
    · exact hpast q hq
    · rw [List.mem_singleton.mp hq]
  have hsince : (e.count + 1).toNat ≤ since ip e.windowStart (requests ++ [(ip, now)]) := by
    have hadd : (e.count + 1).toNat ≤ e.count.toNat + 1 := by
      rw [UInt32.toNat_add]
      exact Nat.mod_le _ _
    rw [since_concat, if_pos ⟨rfl, hstart⟩]
    omega
  have hsoft : (e.count + 1).toNat ≤ f.softLimit.toNat :=
    hsince.trans ((since_le_within hpast' hwindow).trans (hfew _))
  have hhard := hsoft.trans (UInt32.le_iff_toNat_le.mp hlimits)
  refine ⟨⟨?_, ?_⟩, hfree, hsince, hknown⟩
  · rwa [UInt32.not_lt, UInt32.le_iff_toNat_le]
  · rwa [UInt32.not_lt, UInt32.le_iff_toNat_le]

/-- A request is counted with those before it in its window. -/
theorem count_calm {e : Entry} {requests : List Request} (hlimits : f.softLimit ≤ f.hardLimit)
    (hentry : e = ⟨0, now, none⟩ ∨ Counts ip requests e) (hpast : ∀ q ∈ requests, q.2 ≤ now)
    (hfew : ∀ s, within ip s (s + f.window) (requests ++ [(ip, now)]) ≤ f.softLimit.toNat) :
    (f.count e now).1 = .allow ∧ Counts ip (requests ++ [(ip, now)]) (f.count e now).2 := by
  have hfresh : ∃ q ∈ requests ++ [(ip, now)], q.2 = now :=
    ⟨_, List.mem_append_right _ (List.mem_singleton_self _), rfl⟩
  have hslide : (¬f.hardLimit < (f.slide e now).count + 1 ∧
      ¬f.softLimit < (f.slide e now).count + 1) ∧ Counts ip (requests ++ [(ip, now)])
        { f.slide e now with count := (f.slide e now).count + 1 } := by
    unfold slide
    rcases hentry with rfl | hentry
    · rw [if_neg (by simp)]
      exact counted hlimits rfl (Nat.zero_le _) le_rfl (Nat.le_add_right _ _) hfresh hpast hfew
    · split_ifs with hlapsed
      · exact counted hlimits hentry.free (Nat.zero_le _) le_rfl (Nat.le_add_right _ _) hfresh
          hpast hfew
      · obtain ⟨q, hq, hstart⟩ := hentry.start
        have hle : e.windowStart ≤ now := hstart ▸ hpast q hq
        exact counted hlimits hentry.free hentry.count_le hle (by omega)
          ⟨q, List.mem_append_left _ hq, hstart⟩ hpast hfew
  rw [count]
  dsimp only
  rw [if_neg hslide.1.1, if_neg hslide.1.2]
  exact ⟨rfl, hslide.2⟩

theorem Calm.evictExpired {requests : List Request} (h : f.Calm ip requests) (now : Nat) :
    (f.evictExpired now).Calm ip requests := fun e he => h e (List.mem_filter.mp he).1

/-- A request of any address. -/
theorem Calm.concat {requests : List Request} (h : f.Calm ip requests) (q : Request) :
    f.Calm ip (requests ++ [q]) := fun e he => (h e he).concat q

/-- A request of another address leaves the entries of this one, or drops them. -/
theorem Calm.record_ne {requests : List Request} (h : f.Calm ip requests) {ip' : UInt32}
    (hne : ip' ≠ ip) (now : Nat) : (f.record ip' now).2.Calm ip requests := by
  have hjudge (g : FloodTracker) (hg : g.Calm ip requests) :
      (g.judge ip' now).2.Calm ip requests := by
    intro e he
    rcases List.mem_cons.mp he with heq | he
    · exact absurd (congrArg Prod.fst heq).symm hne
    · exact hg e (List.mem_filter.mp he).1
  rcases f.record_cases ip' now with ⟨-, heq⟩ | ⟨-, -, heq⟩ | ⟨-, heq⟩
  · rw [heq]
    exact h.evictExpired now
  · rw [heq]
    exact hjudge _ (h.evictExpired now)
  · rw [heq]
    exact hjudge f h

/-- A request of the address itself is allowed. -/
theorem Calm.record_self {requests : List Request} (h : f.Calm ip requests)
    (hlimits : f.softLimit ≤ f.hardLimit) (hpast : ∀ q ∈ requests, q.2 ≤ now)
    (hfew : ∀ s, within ip s (s + f.window) (requests ++ [(ip, now)]) ≤ f.softLimit.toNat) :
    (f.record ip now).1 = .allow ∧ (f.record ip now).2.Calm ip (requests ++ [(ip, now)]) := by
  have hjudge (g : FloodTracker) (hg : g.Calm ip requests) (hlimits : g.softLimit ≤ g.hardLimit)
      (hfew : ∀ s, within ip s (s + g.window) (requests ++ [(ip, now)]) ≤ g.softLimit.toNat) :
      (g.judge ip now).1 = .allow ∧ (g.judge ip now).2.Calm ip (requests ++ [(ip, now)]) := by
    obtain ⟨e, hentry, he⟩ : ∃ e, (e = ⟨0, now, none⟩ ∨ Counts ip requests e) ∧
        (get g.entries ip).getD ⟨0, now, none⟩ = e := by
      cases hget : get g.entries ip with
      | none => exact ⟨_, .inl rfl, rfl⟩
      | some e => exact ⟨e, .inr (hg e (mem_of_get hget)), rfl⟩
    have hfree : e.bannedUntil = none := by
      rcases hentry with rfl | hentry
      · rfl
      · exact hentry.free
    have hhit : g.hit e now = g.count e now := by rw [hit, hfree]
    obtain ⟨hallow, hcounts⟩ := count_calm hlimits hentry hpast hfew
    unfold judge
    dsimp only
    rw [he, hhit]
    refine ⟨hallow, fun e' he' => ?_⟩
    rcases List.mem_cons.mp he' with heq | he'
    · obtain rfl : e' = _ := congrArg Prod.snd heq
      exact hcounts
    · exact absurd rfl (of_decide_eq_true (List.mem_filter.mp he').2)
  rcases f.record_cases ip now with ⟨-, heq⟩ | ⟨-, -, heq⟩ | ⟨-, heq⟩
  · rw [heq]
    exact ⟨rfl, (h.evictExpired now).concat _⟩
  · rw [heq]
    exact hjudge _ (h.evictExpired now) hlimits hfew
  · rw [heq]
    exact hjudge f h hlimits hfew

/-! ## Every sequence of requests -/

/-- No request changes the configuration. -/
theorem config_record (f : FloodTracker) (ip : UInt32) (now : Nat) :
    (f.record ip now).2 = ⟨f.window, f.softLimit, f.hardLimit, f.banDuration,
      (f.record ip now).2.entries⟩ := by
  rcases f.record_cases ip now with ⟨-, heq⟩ | ⟨-, -, heq⟩ | ⟨-, heq⟩
  all_goals
    rw [heq]
    rfl

theorem config_run (f : FloodTracker) (requests : List Request) :
    f.run requests =
      ⟨f.window, f.softLimit, f.hardLimit, f.banDuration, (f.run requests).entries⟩ := by
  induction requests generalizing f with
  | nil => rfl
  | cons q requests ih =>
    have hrest := ih (f.record q.1 q.2).2
    rw [config_record] at hrest
    rw [run_cons, config_record]
    exact hrest

/-- No request is earlier than one before it. -/
def Ordered (requests : List Request) : Prop := requests.Pairwise fun q q' => q.2 ≤ q'.2

theorem within_le_append (ip : UInt32) (start stop : Nat) (requests requests' : List Request) :
    within ip start stop requests ≤ within ip start stop (requests ++ requests') := by
  unfold within
  rw [List.countP_append]
  exact Nat.le_add_right _ _

theorem calm_run {window : Nat} {softLimit hardLimit : UInt32} {banDuration : Nat}
    (hlimits : softLimit ≤ hardLimit) {requests : List Request} (hordered : Ordered requests)
    (hfew : ∀ s, within ip s (s + window) requests ≤ softLimit.toNat) :
    ((new window softLimit hardLimit banDuration).run requests).Calm ip requests := by
  induction requests using List.reverseRecOn with
  | nil => exact fun e he => absurd he List.not_mem_nil
  | append_singleton requests q ih =>
    obtain ⟨hbefore, -, hpast⟩ := List.pairwise_append.mp hordered
    have hcalm := ih hbefore fun s => (within_le_append ip _ _ _ _).trans (hfew s)
    rw [run_concat]
    by_cases hip : q.1 = ip
    · subst hip
      have hconfig := config_run (new window softLimit hardLimit banDuration) requests
      refine (hcalm.record_self ?_ (fun q' hq' => hpast q' hq' q (List.mem_singleton_self q)) ?_).2
      · rw [hconfig]
        exact hlimits
      · rw [hconfig]
        exact hfew
    · exact (hcalm.record_ne hip q.2).concat q

/-- At most `MAX_TRACKED_IPS` addresses are tracked. A request answered with a ban bans its address
    until a time before which every later request of it is answered so; that is the whole duration
    if no ban was running. And who keeps to the soft limit is always allowed. -/
theorem flood_limiter (window : Nat) (softLimit hardLimit : UInt32) (banDuration : Nat)
    (hlimits : softLimit ≤ hardLimit) (requests : List Request) (hordered : Ordered requests) :
    let f := new window softLimit hardLimit banDuration
    (∀ earlier, earlier <+: requests → (f.run earlier).tracked ≤ MAX_TRACKED_IPS) ∧
    (∀ earlier ip t later, requests = earlier ++ (ip, t) :: later →
      f.verdict earlier (ip, t) = .ban →
      ∃ u, ((f.run earlier).isBanned ip t = false → u = t + banDuration) ∧
        ∀ between t' rest, later = between ++ (ip, t') :: rest → t' < u →
          f.verdict (earlier ++ (ip, t) :: between) (ip, t') = .ban) ∧
    ∀ ip, (∀ s, within ip s (s + window) requests ≤ softLimit.toNat) →
      ∀ earlier t later, requests = earlier ++ (ip, t) :: later →
        f.verdict earlier (ip, t) = .allow := by
  intro f
  refine ⟨fun earlier _ => tracked_run_le (Nat.zero_le _) earlier, ?_, ?_⟩
  · rintro earlier ip t later rfl hban
    obtain ⟨u, hbanned, hnew⟩ := bannedUntil_of_ban hban
    rw [config_run] at hnew
    refine ⟨u, hnew, ?_⟩
    rintro between t' rest rfl ht'
    have hsorted : ((ip, t) :: (between ++ (ip, t') :: rest)).Pairwise fun q q' => q.2 ≤ q'.2 :=
      (List.pairwise_append.mp hordered).2.1
    have hbetween := (List.pairwise_append.mp (List.pairwise_cons.mp hsorted).2).2.2
    have hlast : (f.run (earlier ++ (ip, t) :: between)).BannedUntil ip u := by
      rw [run, List.foldl_append, List.foldl_cons]
      refine BannedUntil.run hbanned fun q hq => ?_
      exact (hbetween q hq (ip, t') (List.mem_cons_self ..)).trans_lt ht'
    exact hlast.verdict ht'
  · rintro ip hfew earlier t later rfl
    have hconfig := config_run f earlier
    have hsplit : earlier ++ (ip, t) :: later = (earlier ++ [(ip, t)]) ++ later := by simp
    rw [hsplit] at hordered hfew
    obtain ⟨hbefore, -, -⟩ := List.pairwise_append.mp hordered
    obtain ⟨hbefore', -, hpast⟩ := List.pairwise_append.mp hbefore
    have hfew' : ∀ s, within ip s (s + window) (earlier ++ [(ip, t)]) ≤ softLimit.toNat :=
      fun s => (within_le_append ip _ _ _ _).trans (hfew s)
    have hcalm : (f.run earlier).Calm ip earlier :=
      calm_run hlimits hbefore' fun s => (within_le_append ip _ _ _ _).trans (hfew' s)
    refine (hcalm.record_self ?_ (fun q hq => hpast q hq _ (List.mem_singleton_self _)) ?_).1
    · rw [hconfig]
      exact hlimits
    · rw [hconfig]
      exact hfew'

/-- The sixth request bans its address, and a later one is answered with the ban still, whatever
    another address sent in between. -/
theorem flood_limiter_bans :
    let f := new 10 3 5 60
    let five : List Request := List.replicate 5 (1, 0)
    f.verdict five (1, 0) = .ban ∧
      f.verdict (five ++ (1, 0) :: [(2, 20)]) (1, 30) = .ban ∧
      f.verdict (five ++ (1, 0) :: [(2, 20)]) (2, 30) = .allow := by
  intro f five
  obtain ⟨-, hbans, hallows⟩ := flood_limiter 10 3 5 60 (by decide)
    (five ++ (1, 0) :: ([(2, 20)] ++ (1, 30) :: [])) (by unfold Ordered; decide)
  obtain ⟨-, -, hallows'⟩ := flood_limiter 10 3 5 60 (by decide)
    ((five ++ (1, 0) :: [(2, 20)]) ++ (2, 30) :: []) (by unfold Ordered; decide)
  have hban : f.verdict five (1, 0) = .ban := by decide +kernel
  obtain ⟨u, hu, hlasts⟩ := hbans five 1 0 _ rfl hban
  have hstarts : u = 0 + 60 := hu (by decide +kernel)
  refine ⟨hban, hlasts [(2, 20)] 30 [] rfl (by rw [hstarts]; decide), ?_⟩
  refine hallows' 2 (fun s => ?_) _ _ [] rfl
  have hof : ∀ q ∈ (five ++ (1, 0) :: [(2, 20)]) ++ (2, 30) :: [],
      decide (q.1 = 2 ∧ s ≤ q.2 ∧ q.2 ≤ s + 10) = true → decide (q.1 = 2) = true := by
    simp only [decide_eq_true_eq]
    exact fun q _ h => h.1
  exact (List.countP_mono_left hof).trans (by decide +kernel)

/-- A ban that is answered while it runs is over when it is over, and not a whole duration later. -/
theorem ban_not_extended :
    let f := new 10 3 5 60
    let six : List Request := List.replicate 6 (1, 0)
    f.verdict six (1, 59) = .ban ∧ 60 < 59 + f.banDuration ∧
      f.verdict (six ++ [(1, 59)]) (1, 60) = .allow := by
  decide +kernel

end FloodTracker

end PadMule.Kad.Flood
