import PadMule.Kad.Flood

/-
  `mule-kad/src/hardening.rs`: how many requests the limiter lets through.

  The windows of an address do not overlap, so an interval of the length of one meets two of them,
  and in each no more requests are let through than the soft limit. `Budgeted` says so of the
  limiter behind any number of requests, and a request keeps it (`Budgeted.record`). The exception
  are the requests that are let through uncounted, because the tracker is full of others (`full`).
-/

namespace PadMule.Kad.Flood

open FileMap

namespace FloodTracker

/-- No entry for the address, and no room for one. -/
def full (f : FloodTracker) (q : Request) : Bool :=
  (get f.entries q.1).isNone && MAX_TRACKED_IPS ≤ (f.evictExpired q.2).tracked

/-- Let through and counted, in an interval. -/
def admits (f : FloodTracker) (ip : UInt32) (start stop : Nat) (q : Request) : Bool :=
  q.1 = ip && (start ≤ q.2 && q.2 ≤ stop) && !f.full q && (f.record q.1 q.2).1 = .allow

variable {f : FloodTracker} {ip : UInt32} {s n now : Nat}

/-! ## The windows of an address -/

/-- What an entry says of itself. -/
structure Sound (hardLimit : UInt32) (banDuration now : Nat) (e : Entry) : Prop where
  past : e.windowStart ≤ now
  banned : ∀ u, e.bannedUntil = some u → e.windowStart + banDuration ≤ u
  free : e.bannedUntil = none → e.count ≤ hardLimit

/-- The window of an entry against the interval of its length from `s` on, of which `n` requests
    were let through: it starts in front of the interval and holds them all, or within it and holds
    all but those of one earlier window, or behind it. -/
def Phase (f : FloodTracker) (s n : Nat) (e : Entry) : Prop :=
  (e.windowStart < s ∧ n ≤ min e.count.toNat f.softLimit.toNat) ∨
  (s ≤ e.windowStart ∧ e.windowStart ≤ s + f.window ∧
    n ≤ f.softLimit.toNat + min e.count.toNat f.softLimit.toNat) ∨
  (s + f.window < e.windowStart ∧ n ≤ 2 * f.softLimit.toNat)

/-- The interval has room for one more window, or is over. -/
def Rested (f : FloodTracker) (s n now : Nat) : Prop :=
  n ≤ f.softLimit.toNat ∨ (s + f.window < now ∧ n ≤ 2 * f.softLimit.toNat)

/-- The limiter behind the requests up to `now`. -/
structure Budgeted (f : FloodTracker) (ip : UInt32) (s n now : Nat) : Prop where
  entry : ∀ e, (ip, e) ∈ f.entries → Sound f.hardLimit f.banDuration now e ∧ f.Phase s n e
  untracked : get f.entries ip = none → f.Rested s n now
  early : now < s → n = 0

/-- What is let through of the interval at `now`. -/
def gain (f : FloodTracker) (s now : Nat) (v : FloodVerdict) : Nat :=
  if (s ≤ now ∧ now ≤ s + f.window) ∧ v = .allow then 1 else 0

theorem Phase.le (h : f.Phase s n e) : n ≤ 2 * f.softLimit.toNat := by
  rcases h with ⟨-, h⟩ | ⟨-, -, h⟩ | ⟨-, h⟩ <;> omega

theorem Budgeted.le (h : f.Budgeted ip s n now) : n ≤ 2 * f.softLimit.toNat := by
  cases hget : get f.entries ip with
  | none =>
    rcases h.untracked hget with h | h <;> omega
  | some e => exact (h.entry e (mem_of_get hget)).2.le

/-- An entry whose window is over. -/
theorem Phase.rested {e : Entry} (h : f.Phase s n e) (hover : e.windowStart + f.window < now) :
    f.Rested s n now := by
  rcases h with ⟨-, h⟩ | ⟨hs, -, h⟩ | ⟨hs, h⟩
  · exact .inl (by omega)
  · exact .inr (by omega)
  · exact .inr (by omega)

theorem count_cases (f : FloodTracker) (e : Entry) (now : Nat) :
    (f.hardLimit < (f.slide e now).count + 1 ∧ f.count e now =
        (.ban, ⟨(f.slide e now).count + 1, (f.slide e now).windowStart,
          some (now + f.banDuration)⟩)) ∨
      (¬f.hardLimit < (f.slide e now).count + 1 ∧ ∃ v, f.count e now =
          (v, ⟨(f.slide e now).count + 1, (f.slide e now).windowStart,
            (f.slide e now).bannedUntil⟩) ∧
        (v = .allow → (f.slide e now).count + 1 ≤ f.softLimit)) := by
  unfold count
  dsimp only
  split_ifs with hhard hsoft
  · exact .inl ⟨hhard, rfl⟩
  · exact .inr ⟨hhard, _, rfl, fun hno => by cases hno⟩
  · exact .inr ⟨hhard, _, rfl, fun _ => UInt32.not_lt.mp hsoft⟩

/-- A request of an entry without a ban, or of a new one. -/
theorem count_phase {e : Entry} (hsmall : f.hardLimit.toNat + 1 < UInt32.size)
    (hsound : Sound f.hardLimit f.banDuration now e) (hfree : e.bannedUntil = none)
    (hphase : (e.windowStart = now ∧ e.count = 0 ∧ f.Rested s n now) ∨ f.Phase s n e)
    (hearly : now < s → n = 0) :
    Sound f.hardLimit f.banDuration now (f.count e now).2 ∧
      f.Phase s (n + f.gain s now (f.count e now).1) (f.count e now).2 := by
  -- the window of the request: a new one, or the one of the entry
  have hslide : (f.slide e now).bannedUntil = none ∧ (f.slide e now).count ≤ f.hardLimit ∧
      (f.slide e now).windowStart ≤ now ∧ now ≤ (f.slide e now).windowStart + f.window ∧
      (((f.slide e now).windowStart = now ∧ (f.slide e now).count = 0 ∧ f.Rested s n now) ∨
        f.Phase s n (f.slide e now)) := by
    unfold slide
    split_ifs with hover
    · refine ⟨hfree, UInt32.zero_le, le_rfl, Nat.le_add_right _ _, .inl ⟨rfl, rfl, ?_⟩⟩
      rcases hphase with ⟨-, -, hrested⟩ | hphase
      · exact hrested
      · exact hphase.rested (by omega)
    · have hstart := hsound.past
      exact ⟨hfree, hsound.free hfree, hstart, by omega, hphase⟩
  have hcases := f.count_cases e now
  generalize f.slide e now = w at hslide hcases
  generalize f.count e now = r at hcases ⊢
  obtain ⟨hbanned, hle, hbefore, hwithin, hphase⟩ := hslide
  have hle := UInt32.le_iff_toNat_le.mp hle
  have hnext : (w.count + 1).toNat = w.count.toNat + 1 := by
    rw [UInt32.toNat_add]
    exact Nat.mod_eq_of_lt ((Nat.add_le_add_right hle 1).trans_lt hsmall)
  have hnew {v : FloodVerdict} {b : Option Nat}
      (hsoft : v = .allow → w.count.toNat + 1 ≤ f.softLimit.toNat) :
      f.Phase s (n + f.gain s now v) ⟨w.count + 1, w.windowStart, b⟩ := by
    unfold Phase gain
    dsimp only
    rw [hnext]
    rcases hphase with ⟨hnow, hzero, hrested⟩ | hphase
    · rw [hzero, UInt32.toNat_zero] at hsoft ⊢
      rw [hnow]
      rcases Nat.lt_trichotomy now s with hlt | heq | hgt
      · refine .inl ⟨hlt, ?_⟩
        rw [if_neg (by omega), hearly hlt]
        omega
      · refine .inr (.inl ⟨by omega, by omega, ?_⟩)
        rcases hrested with h | h
        · split_ifs with hgain
          · have hone := hsoft hgain.2
            omega
          · omega
        · omega
      · by_cases hin : now ≤ s + f.window
        · refine .inr (.inl ⟨by omega, hin, ?_⟩)
          rcases hrested with h | h
          · split_ifs with hgain
            · have hone := hsoft hgain.2
              omega
            · omega
          · omega
        · refine .inr (.inr ⟨by omega, ?_⟩)
          rw [if_neg (by omega)]
          rcases hrested with h | h <;> omega
    · rcases hphase with ⟨hs, h⟩ | ⟨hs, hs', h⟩ | ⟨hs, h⟩
      · refine .inl ⟨hs, ?_⟩
        split_ifs with hgain
        · have hone := hsoft hgain.2
          omega
        · omega
      · refine .inr (.inl ⟨hs, hs', ?_⟩)
        split_ifs with hgain
        · have hone := hsoft hgain.2
          omega
        · omega
      · refine .inr (.inr ⟨hs, ?_⟩)
        rw [if_neg (by omega)]
        omega
  rcases hcases with ⟨-, rfl⟩ | ⟨hhard, v, rfl, hallow⟩
  · refine ⟨⟨hbefore, fun u hu => ?_, fun hno => (by cases hno)⟩,
      hnew fun hno => (by cases hno)⟩
    rw [← Option.some.inj hu]
    exact Nat.add_le_add_right hbefore _
  · refine ⟨⟨hbefore, fun u hu => ?_, fun _ => UInt32.not_lt.mp hhard⟩, hnew fun hv => ?_⟩
    · rw [hbanned] at hu
      cases hu
    · rw [← hnext]
      exact UInt32.le_iff_toNat_le.mp (hallow hv)

/-! ## One request -/

theorem Sound.later {e : Entry} {now' : Nat} (h : Sound f.hardLimit f.banDuration now e)
    (hlater : now ≤ now') :
    Sound f.hardLimit f.banDuration now' e := ⟨h.past.trans hlater, h.banned, h.free⟩

theorem Rested.later {now' : Nat} (h : f.Rested s n now) (hlater : now ≤ now') :
    f.Rested s n now' := h.imp_right fun h => ⟨h.1.trans_le hlater, h.2⟩

theorem Budgeted.later {now' : Nat} (h : f.Budgeted ip s n now) (hlater : now ≤ now') :
    f.Budgeted ip s n now' where
  entry := fun e he => ⟨(h.entry e he).1.later hlater, (h.entry e he).2⟩
  untracked := fun hnone => (h.untracked hnone).later hlater
  early := fun hearly => h.early (hlater.trans_lt hearly)

theorem Phase.fewer {e : Entry} {n' : Nat} (h : f.Phase s n e) (hle : n' ≤ n) : f.Phase s n' e :=
  h.imp (And.imp_right hle.trans)
    (Or.imp (And.imp_right (And.imp_right hle.trans)) (And.imp_right hle.trans))

theorem Budgeted.fewer {n' : Nat} (h : f.Budgeted ip s n now) (hle : n' ≤ n) :
    f.Budgeted ip s n' now where
  entry := fun e he => ⟨(h.entry e he).1, (h.entry e he).2.fewer hle⟩
  untracked := fun hnone => (h.untracked hnone).imp hle.trans (And.imp_right hle.trans)
  early := fun hearly => Nat.le_zero.mp (h.early hearly ▸ hle)

theorem gain_of_ne {v : FloodVerdict} (h : v ≠ .allow) : f.gain s now v = 0 :=
  if_neg fun hgain => h hgain.2

theorem gain_of_early {v : FloodVerdict} (h : now < s) : f.gain s now v = 0 :=
  if_neg fun hgain => by omega

/-- A request of an entry whose ban is running leaves it; behind its ban it starts afresh, which is
    behind its window. -/
theorem hit_phase {e : Entry} (hsmall : f.hardLimit.toNat + 1 < UInt32.size)
    (hban : f.window < f.banDuration) (hsound : Sound f.hardLimit f.banDuration now e)
    (hphase : (e = ⟨0, now, none⟩ ∧ f.Rested s n now) ∨ f.Phase s n e)
    (hearly : now < s → n = 0) :
    Sound f.hardLimit f.banDuration now (f.hit e now).2 ∧
      f.Phase s (n + f.gain s now (f.hit e now).1) (f.hit e now).2 := by
  unfold hit
  cases hbanned : e.bannedUntil with
  | none =>
    dsimp only
    refine count_phase hsmall hsound hbanned (hphase.imp_left ?_) hearly
    rintro ⟨rfl, hrested⟩
    exact ⟨rfl, rfl, hrested⟩
  | some u =>
    have hold : f.Phase s n e := by
      rcases hphase with ⟨rfl, -⟩ | hphase
      · cases hbanned
      · exact hphase
    dsimp only
    split_ifs with hlive
    · rw [gain_of_ne fun hno => by cases hno]
      exact ⟨hsound, hold⟩
    · have hu := hsound.banned u hbanned
      have hfresh : Sound f.hardLimit f.banDuration now ⟨0, now, none⟩ :=
        ⟨le_rfl, fun _ hno => (by cases hno), fun _ => UInt32.zero_le⟩
      exact count_phase hsmall hfresh rfl (.inl ⟨rfl, rfl, hold.rested (by omega)⟩) hearly

/-- What is dropped is over. -/
theorem Budgeted.evictExpired (h : f.Budgeted ip s n now) :
    (f.evictExpired now).Budgeted ip s n now where
  entry := fun e he => h.entry e (List.mem_filter.mp he).1
  untracked := by
    intro hnone
    cases hget : get f.entries ip with
    | none => exact h.untracked hget
    | some e =>
      have hmem := mem_of_get hget
      have hdropped : ¬(bans now e || decide (now - e.windowStart ≤ f.window)) = true := by
        intro hkept
        have hkept' := get_filter
          (p := fun e => bans now e.2 || decide (now - e.2.windowStart ≤ f.window)) hget hkept
        exact absurd (hnone.symm.trans hkept') (by simp)
      rw [Bool.or_eq_true, not_or, decide_eq_true_eq] at hdropped
      exact (h.entry e hmem).2.rested (by omega)
  early := h.early

/-- A request of another address. -/
theorem Budgeted.judge_ne (h : f.Budgeted ip s n now) {ip' : UInt32} (hne : ip' ≠ ip) :
    (f.judge ip' now).2.Budgeted ip s n now where
  entry := by
    intro e he
    rcases List.mem_cons.mp he with heq | he
    · exact absurd (congrArg Prod.fst heq).symm hne
    · exact h.entry e (List.mem_filter.mp he).1
  untracked := by
    intro hnone
    refine h.untracked ?_
    change get (write f.entries ip' _) ip = none at hnone
    rwa [get_write, if_neg fun heq => hne heq.symm] at hnone
  early := h.early

theorem Budgeted.judge_self (h : f.Budgeted ip s n now)
    (hsmall : f.hardLimit.toNat + 1 < UInt32.size) (hban : f.window < f.banDuration) :
    (f.judge ip now).2.Budgeted ip s (n + f.gain s now (f.judge ip now).1) now := by
  obtain ⟨e, he, hsound, hphase⟩ : ∃ e, (get f.entries ip).getD ⟨0, now, none⟩ = e ∧
      Sound f.hardLimit f.banDuration now e ∧
      ((e = ⟨0, now, none⟩ ∧ f.Rested s n now) ∨ f.Phase s n e) := by
    cases hget : get f.entries ip with
    | none =>
      exact ⟨_, rfl, ⟨le_rfl, fun _ hno => (by cases hno), fun _ => UInt32.zero_le⟩,
        .inl ⟨rfl, h.untracked hget⟩⟩
    | some e => exact ⟨e, rfl, (h.entry e (mem_of_get hget)).imp_right .inr⟩
  have hhit := hit_phase hsmall hban hsound hphase h.early
  unfold judge
  dsimp only
  rw [he]
  refine ⟨fun e' he' => ?_, fun hnone => ?_, fun hearly => ?_⟩
  · rcases List.mem_cons.mp he' with heq | he'
    · obtain rfl : e' = _ := congrArg Prod.snd heq
      exact hhit
    · exact absurd rfl (of_decide_eq_true (List.mem_filter.mp he').2)
  · change get (write f.entries ip _) ip = none at hnone
    rw [get_write, if_pos rfl] at hnone
    cases hnone
  · rw [gain_of_early hearly, h.early hearly]

theorem record_of_full {q : Request} (h : f.full q = true) :
    f.record q.1 q.2 = (.allow, f.evictExpired q.2) := by
  rw [full, Bool.and_eq_true, decide_eq_true_eq, Option.isNone_iff_eq_none] at h
  rw [record, if_pos ⟨h.2.trans (tracked_evictExpired_le f q.2), h.1⟩]
  exact if_pos h.2

theorem record_of_room {q : Request} (h : f.full q = false) :
    ∃ g, (g = f ∨ g = f.evictExpired q.2) ∧ f.record q.1 q.2 = g.judge q.1 q.2 := by
  unfold record
  dsimp only
  split_ifs with hfull hstill
  · rw [full, hfull.2, Option.isNone_none, Bool.true_and, decide_eq_false_iff_not] at h
    exact absurd hstill h
  · exact ⟨_, .inr rfl, rfl⟩
  · exact ⟨_, .inl rfl, rfl⟩

theorem Budgeted.record {q : Request} (h : f.Budgeted ip s n now) (hlater : now ≤ q.2)
    (hsmall : f.hardLimit.toNat + 1 < UInt32.size) (hban : f.window < f.banDuration) :
    (f.record q.1 q.2).2.Budgeted ip s
      (n + if f.admits ip s (s + f.window) q then 1 else 0) q.2 := by
  have h := h.later hlater
  by_cases hfull : f.full q = true
  · rw [record_of_full hfull, if_neg (by rw [admits, hfull]; simp)]
    exact h.evictExpired
  · rw [Bool.not_eq_true] at hfull
    obtain ⟨g, hg, hrecord⟩ := record_of_room hfull
    have hbudget : g.Budgeted ip s n q.2 := by
      rcases hg with rfl | rfl
      · exact h
      · exact h.evictExpired
    have hgain : f.gain s q.2 = g.gain s q.2 ∧ g.hardLimit = f.hardLimit ∧
        g.window = f.window ∧ g.banDuration = f.banDuration := by
      rcases hg with rfl | rfl <;> exact ⟨rfl, rfl, rfl, rfl⟩
    rw [hrecord]
    by_cases hip : q.1 = ip
    · have hadmits : (if f.admits ip s (s + f.window) q then 1 else 0) =
          f.gain s q.2 (g.judge q.1 q.2).1 := by
        unfold admits gain
        rw [hfull, hrecord]
        simp only [hip, Bool.not_false, decide_true, Bool.true_and, Bool.and_true,
          Bool.and_eq_true, decide_eq_true_eq]
      rw [hadmits, hgain.1, hip]
      refine hbudget.judge_self ?_ ?_
      · rwa [hgain.2.1]
      · rwa [hgain.2.2.1, hgain.2.2.2]
    · rw [if_neg (by rw [admits, decide_eq_false hip]; simp)]
      exact hbudget.judge_ne hip

end FloodTracker

end PadMule.Kad.Flood
