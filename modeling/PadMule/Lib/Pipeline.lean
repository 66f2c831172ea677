import PadMule.Lib.Recent

/-
  Items asked for over a pipe, with a window, and answered once.

  The asking end keeps some items open and may ask for one of them again. The answering end
  remembers the last `n` items it answered and skips what it remembers. What is answered and not
  taken yet (`coming`) and what is asked and not looked at yet (`asked`) are never more than `k`
  together. With `2 * k ≤ n` a repetition still finds its item remembered, so every open item is
  answered once (`Flow`): an answer that arrives is for an open item (`Flow.head_opened`), and as
  long as an item is open there is something on its way (`Flow.on_its_way`).
-/

namespace Pipeline

open Recent

variable {α : Type*} {k n : Nat} {opened coming asked recent : List α} {settled : Set α}

/-- `settled` are the items that were answered and taken, and are never asked for again. -/
structure Flow (k n : Nat) (opened coming asked recent : List α) (settled : Set α) : Prop where
  once : coming.Nodup
  wanted : ∀ b ∈ coming, b ∈ opened
  covered : ∀ b ∈ opened, b ∈ coming ∨ b ∈ asked
  told : ∀ b ∈ asked, b ∈ recent ∨ b ∈ opened
  newest : coming = recent.rtake coming.length
  past : ∀ b ∈ recent, b ∈ coming ∨ b ∈ settled
  live : ∀ b ∈ opened, b ∉ settled
  /-- What stands at position `j` is remembered until its turn, if it is now. -/
  near : ∀ j b, asked[j]? = some b → b ∈ recent → b ∈ recent.rtake (2 * k - j)
  window : coming.length + asked.length ≤ k
  held : recent.length ≤ n

theorem mem_of_rtake {b : α} {m : Nat} (h : b ∈ recent.rtake m) : b ∈ recent := by
  rw [List.rtake] at h
  exact List.mem_of_mem_drop h

theorem rtake_mono {b : α} {m m' : Nat} (hle : m ≤ m') (h : b ∈ recent.rtake m) :
    b ∈ recent.rtake m' := by
  rw [List.rtake] at h ⊢
  have hcut : recent.drop (recent.length - m) =
      (recent.drop (recent.length - m')).drop (recent.length - m - (recent.length - m')) := by
    rw [List.drop_drop]
    congr 1
    omega
  rw [hcut] at h
  exact List.mem_of_mem_drop h

/-- A memory that is pushed is the last `n` of itself and the new item. -/
theorem push_eq (hn : 0 < n) (hheld : recent.length ≤ n) (b : α) :
    push n recent b = (recent ++ [b]).rtake n := by
  have hself : recent.rtake n = recent := by
    rw [List.rtake, Nat.sub_eq_zero_of_le hheld, List.drop_zero]
  have hpush := push_rtake (l := recent) (x := b) hn
  rwa [hself] at hpush

theorem rtake_push {m : Nat} (hn : 0 < n) (hheld : recent.length ≤ n) (hm : m < n) (b : α) :
    (push n recent b).rtake (m + 1) = recent.rtake m ++ [b] := by
  rw [push_eq hn hheld, List.rtake_eq_reverse_take_reverse (n := m + 1),
    List.rtake_eq_reverse_take_reverse (n := n), List.reverse_reverse, List.take_take,
    Nat.min_eq_left hm, List.reverse_append, List.reverse_singleton, List.singleton_append,
    List.take_succ_cons, List.reverse_cons, List.rtake_eq_reverse_take_reverse]

theorem length_push_le (hn : 0 < n) (hheld : recent.length ≤ n) (b : α) :
    (push n recent b).length ≤ n := by
  rw [push_eq hn hheld, List.rtake_eq_reverse_take_reverse, List.length_reverse, List.length_take]
  exact Nat.min_le_left ..

theorem mem_push {b c : α} (hn : 0 < n) (hheld : recent.length ≤ n) (h : c ∈ push n recent b) :
    c ∈ recent ∨ c = b := by
  rw [push_eq hn hheld] at h
  simpa using mem_of_rtake h

namespace Flow

theorem nil (hheld : recent.length ≤ n) (hpast : ∀ b ∈ recent, b ∈ settled) :
    Flow k n [] [] [] recent settled where
  once := List.nodup_nil
  wanted _ hb := absurd hb List.not_mem_nil
  covered _ hb := absurd hb List.not_mem_nil
  told _ hb := absurd hb List.not_mem_nil
  newest := by simp [List.rtake]
  past b hb := .inr (hpast b hb)
  live _ hb := absurd hb List.not_mem_nil
  near j b hb := by simp at hb
  window := Nat.zero_le _
  held := hheld

theorem head_opened {b : α} {rest : List α} (h : Flow k n opened (b :: rest) asked recent settled) :
    b ∈ opened :=
  h.wanted b List.mem_cons_self

theorem on_its_way (h : Flow k n opened coming asked recent settled) (hne : opened ≠ []) :
    coming ≠ [] ∨ asked ≠ [] := by
  obtain ⟨b, hb⟩ := List.exists_mem_of_ne_nil _ hne
  exact (h.covered b hb).imp List.ne_nil_of_mem List.ne_nil_of_mem

theorem mem_recent (h : Flow k n opened coming asked recent settled) {b : α} (hb : b ∈ coming) :
    b ∈ recent := by
  rw [h.newest] at hb
  exact mem_of_rtake hb

/-- An item that is remembered is skipped. -/
theorem skip {b : α} {rest : List α} (h : Flow k n opened coming (b :: rest) recent settled)
    (hb : b ∈ recent) : Flow k n opened coming rest recent settled where
  once := h.once
  wanted := h.wanted
  covered c hc := by
    rcases h.covered c hc with hcoming | hasked
    · exact .inl hcoming
    · rcases List.mem_cons.mp hasked with rfl | hrest
      · exact .inl ((h.past c hb).resolve_right (h.live c hc))
      · exact .inr hrest
  told c hc := h.told c (List.mem_cons_of_mem _ hc)
  newest := h.newest
  past := h.past
  live := h.live
  near j c hc hrec := rtake_mono (by omega) (h.near (j + 1) c hc hrec)
  window := by
    have := h.window
    rw [List.length_cons] at this
    omega
  held := h.held

/-- An item that is not remembered is answered. -/
theorem answer {b : α} {rest : List α} (hn : 2 * k ≤ n)
    (h : Flow k n opened coming (b :: rest) recent settled) (hb : b ∉ recent) :
    Flow k n opened (coming ++ [b]) rest (push n recent b) settled := by
  have hwindow := h.window
  rw [List.length_cons] at hwindow
  have hpos : 0 < n := by omega
  have hopen : b ∈ opened := (h.told b List.mem_cons_self).resolve_left hb
  have hkept : ∀ {j : Nat} {c : α}, rest[j]? = some c → c ∈ recent →
      c ∈ (push n recent b).rtake (2 * k - j) := by
    intro j c hc hrec
    have hj : j < rest.length := (List.getElem?_eq_some_iff.mp hc).1
    have hlast := h.near (j + 1) c hc hrec
    have hturn : 2 * k - j = 2 * k - (j + 1) + 1 := by omega
    rw [hturn, rtake_push hpos h.held (by omega)]
    exact List.mem_append_left _ hlast
  have hnew : b ∈ (push n recent b).rtake 1 := by
    have hlast := rtake_push (m := 0) hpos h.held hpos b
    rw [Nat.zero_add] at hlast
    rw [hlast]
    simp
  refine {
    once := ?_
    wanted := ?_
    covered := fun c hc => ?_
    told := fun c hc => ?_
    newest := ?_
    past := fun c hc => ?_
    live := h.live
    near := fun j c hc hrec => ?_
    window := ?_
    held := length_push_le hpos h.held b }
  · exact List.nodup_append.mpr ⟨h.once, List.nodup_singleton b, fun c hc d hd => by
      rintro rfl
      exact hb (List.mem_singleton.mp hd ▸ h.mem_recent hc)⟩
  · intro c hc
    rcases List.mem_append.mp hc with hc | hc
    · exact h.wanted c hc
    · rwa [List.mem_singleton.mp hc]
  · rcases h.covered c hc with hcoming | hasked
    · exact .inl (List.mem_append_left _ hcoming)
    · rcases List.mem_cons.mp hasked with rfl | hrest
      · exact .inl (by simp)
      · exact .inr hrest
  · rcases h.told c (List.mem_cons_of_mem _ hc) with hrec | hopened
    · obtain ⟨j, hj⟩ := List.getElem?_of_mem hc
      exact .inl (mem_of_rtake (hkept hj hrec))
    · exact .inr hopened
  · rw [List.length_append, List.length_singleton, rtake_push hpos h.held (by omega), ← h.newest]
  · rcases mem_push hpos h.held hc with hc | rfl
    · exact (h.past c hc).imp (List.mem_append_left _) id
    · exact .inl (by simp)
  · have hj : j < rest.length := (List.getElem?_eq_some_iff.mp hc).1
    rcases mem_push hpos h.held hrec with hrec | rfl
    · exact hkept hc hrec
    · exact rtake_mono (by omega) hnew
  · rw [List.length_append, List.length_singleton]
    omega

/-- The first answer is taken: its item is open no longer, and settled. -/
theorem take {b : α} {rest opened' : List α} {settled' : Set α}
    (h : Flow k n opened (b :: rest) asked recent settled)
    (hopen : ∀ c, c ∈ opened' ↔ c ∈ opened ∧ c ≠ b) (hsettled : settled ⊆ settled')
    (hb : b ∈ settled') (hlive : ∀ c ∈ opened', c ∉ settled') :
    Flow k n opened' rest asked recent settled' where
  once := h.once.of_cons
  wanted c hc := (hopen c).mpr ⟨h.wanted c (List.mem_cons_of_mem _ hc),
    ne_of_mem_of_not_mem hc (List.nodup_cons.mp h.once).1⟩
  covered c hc := by
    obtain ⟨hc, hne⟩ := (hopen c).mp hc
    rcases h.covered c hc with hcoming | hasked
    · exact .inl ((List.mem_cons.mp hcoming).resolve_left hne)
    · exact .inr hasked
  told c hc := by
    rcases h.told c hc with hrec | hopened
    · exact .inl hrec
    · by_cases hcb : c = b
      · exact .inl (h.mem_recent (hcb ▸ List.mem_cons_self))
      · exact .inr ((hopen c).mpr ⟨hopened, hcb⟩)
  newest := by
    have hnew := h.newest
    rw [List.length_cons, List.rtake] at hnew
    have hlen : rest.length + 1 ≤ recent.length := by
      have := congrArg List.length hnew
      rw [List.length_cons, List.length_drop] at this
      omega
    have htail := congrArg List.tail hnew
    rw [List.tail_cons, List.tail_drop] at htail
    rw [List.rtake, htail]
    congr 1
    rw [← htail]
    omega
  past c hc := by
    rcases h.past c hc with hcoming | hset
    · rcases List.mem_cons.mp hcoming with rfl | hrest
      · exact .inr hb
      · exact .inl hrest
    · exact .inr (hsettled hset)
  live := hlive
  near := h.near
  window := by
    have := h.window
    rw [List.length_cons] at this
    omega
  held := h.held

/-- More is asked for: items that are open then, some of them for the first time. -/
theorem ask {more opened' : List α} (h : Flow k n opened coming asked recent settled)
    (hopen : ∀ c, c ∈ opened' ↔ c ∈ opened ∨ c ∈ more) (hlive : ∀ c ∈ more, c ∉ settled)
    (hroom : coming.length + (asked.length + more.length) ≤ k) :
    Flow k n opened' coming (asked ++ more) recent settled where
  once := h.once
  wanted c hc := (hopen c).mpr (.inl (h.wanted c hc))
  covered c hc := by
    rcases (hopen c).mp hc with hc | hc
    · exact (h.covered c hc).imp id (List.mem_append_left _)
    · exact .inr (List.mem_append_right _ hc)
  told c hc := by
    rcases List.mem_append.mp hc with hc | hc
    · exact (h.told c hc).imp id fun hc => (hopen c).mpr (.inl hc)
    · exact .inr ((hopen c).mpr (.inr hc))
  newest := h.newest
  past := h.past
  live c hc := ((hopen c).mp hc).elim (h.live c) (hlive c)
  near j c hc hrec := by
    by_cases hj : j < asked.length
    · rw [List.getElem?_append_left hj] at hc
      exact h.near j c hc hrec
    · rw [List.getElem?_append_right (Nat.not_lt.mp hj)] at hc
      have hlt : j - asked.length < more.length := (List.getElem?_eq_some_iff.mp hc).1
      have hcoming := (h.past c hrec).resolve_right (hlive c (List.mem_of_getElem? hc))
      rw [h.newest] at hcoming
      exact rtake_mono (by omega) hcoming
  window := by
    rw [List.length_append]
    exact hroom
  held := h.held

end Flow

end Pipeline
