import Mosito.Physical.ShuffleSender

/-! When the sorting lower end of the shuffle returns. -/
namespace Mosito
open ByteStore KWayMerge Fairness
namespace ShuffleSender
open ShuffleLower

section Runs
variable {n t e : ℕ} {s : ShuffleSender} {ev : ℕ → Event} {i j k c l : ℕ}

/-- How many steps of a round come before place `j`, and how many attempts before the next step. -/
def toGo (n j : ℕ) (s : ShuffleSender) : ℕ :=
  11 * (if s.lower.pc.position ≤ j then j - s.lower.pc.position
    else n + 2 + j - s.lower.pc.position) + (10 - s.seconds)

/-- A round comes to each of its places, if its stage lasts. -/
theorem visits (hfair : Fair n ev) (hinv : Inv n t e (trace next s ev k)) (hc : c ≤ 1)
    (hstage : (trace next s ev k).lower.pc.stage = c) (hj : j ≤ n + 1) :
    ∃ m ≥ k, c < (trace next s ev m).lower.pc.stage ∨
      (trace next s ev m).lower.pc.stage = c ∧ (trace next s ev m).lower.pc.position = j := by
  by_cases hpos : (trace next s ev k).lower.pc.position = j
  · exact ⟨k, le_rfl, Or.inr ⟨hstage, hpos⟩⟩
  refine leadsTo_of_rank (p := fun a => a = .execute) (P := fun s => Inv n t e s ∧
    s.lower.pc.stage = c ∧ s.lower.pc.position ≠ j) (Q := fun s => c < s.lower.pc.stage ∨
    s.lower.pc.stage = c ∧ s.lower.pc.position = j) (toGo n j) hfair.executes (fun s a h => ?_)
    ⟨hinv, hstage, hpos⟩
  obtain ⟨hs, hstage, hne⟩ := h
  have hinv' := hs.next a
  rcases s.next_cases a with ⟨ha, hl, hsec⟩ | ⟨-, ho, hl, hsec⟩ | ⟨accepted, -, -, hl, hsec⟩
  · refine Or.inr ⟨⟨hinv', by rw [hl]; exact ⟨hstage, hne⟩⟩, ?_, fun he => absurd he ha⟩
    rw [toGo, toGo, hl, hsec]
  · have hten := seconds_ne_of_outcome ho
    have hle := hs.seconds
    refine Or.inr ⟨⟨hinv', by rw [hl]; exact ⟨hstage, hne⟩⟩, ?_⟩
    rw [toGo, toGo, hl, hsec]
    omega
  · have hbound := hs.phase.bound
    rcases hs.phase.advance_position (hstage.trans_le hc) accepted with hlt | ⟨heq, hpos⟩
    · rw [hl]
      exact Or.inl (Or.inl (hstage ▸ hlt))
    · rw [← hl] at heq hpos
      by_cases hj' : (s.next a).lower.pc.position = j
      · exact Or.inl (Or.inr ⟨heq.trans hstage, hj'⟩)
      · have hlt : toGo n j (s.next a) < toGo n j s := by
          rw [toGo, toGo, hsec, hpos]
          rw [hpos] at hj'
          split_ifs at hj' ⊢ <;> omega
        exact Or.inr ⟨⟨hinv', heq.trans hstage, hj'⟩, hlt.le, fun _ => hlt⟩

/-- The next attempt finds `execute` where it is. -/
theorem exists_attempt (hfair : Fair n ev) (hinv : Inv n t e (trace next s ev k)) :
    ∃ m ≥ k, ev m = .execute ∧ (trace next s ev m).lower = (trace next s ev k).lower ∧
      Inv n t e (trace next s ev m) := by
  refine exists_next (p := fun a => a = .execute)
    (P := fun s' => s'.lower = (trace next s ev k).lower ∧ Inv n t e s') hfair.executes
    (fun s' a ha h => ?_) ⟨rfl, hinv⟩
  rcases s'.next_cases a with ⟨-, hl, -⟩ | ⟨he, -⟩ | ⟨_, he, -⟩
  · exact ⟨hl.trans h.1, h.2.next a⟩
  · exact absurd he ha
  · exact absurd he ha

/-- A destination for which `put` is called again and again is served in the end. -/
theorem exists_accepts (hfair : Fair n ev) (hi : i < n) (hinv : Inv n t e (trace next s ev k))
    (hoffers : ∀ m ≥ k, ∃ m' ≥ m, (trace next s ev m').Offers i) :
    ∃ m ≥ k, (trace next s ev m).Accepts (ev m) i := by
  by_contra! hnever
  have hinvs (m : ℕ) (hm : k ≤ m) : Inv n t e (trace next s ev m) :=
    keeps (fun _ a h => h.next a) hinv hm
  obtain ⟨p, hp, hpop⟩ := hfair.drains i hi k
  have hroom (m : ℕ) (hm : p + 1 ≤ m) :
      ((trace next s ev m).data i).contents.length < columnCon := by
    induction m, hm using Nat.le_induction with
    | base =>
      rw [trace, hpop]
      exact (hinvs p hp).length_pop i
    | succ m hm ih => exact (length_next_le (hnever m (by omega))).trans_lt ih
  obtain ⟨m', hm', hoff⟩ := hoffers (p + 1) (by omega)
  obtain ⟨m, hm, he, hl, hinv'⟩ := exists_attempt hfair (hinvs m' (by omega))
  have hoff' : (trace next s ev m).Offers i := by rwa [Offers, hl]
  exact hnever m (by omega) ⟨he, hoff', hinv'.outcome_of_room hoff' (hroom m (by omega))⟩

theorem Offers.cases {s : ShuffleSender} (h : s.Offers i) : i < s.lower.n ∧
    ((s.lower.pc = .send i ∨ s.lower.pc = .flush i) ∧ (s.lower.buffers i).empty = false ∨
      s.lower.pc = .close i) := by
  obtain ⟨img, himg⟩ := h
  unfold offered at himg
  split at himg
  all_goals first | (split_ifs at himg with hif; cases himg) | cases himg
  all_goals simp_all

theorem offers_of_send {s : ShuffleSender} (hpc : s.lower.pc = .send i) (hi : i < s.lower.n)
    (hempty : (s.lower.buffers i).empty = false) : s.Offers i := by
  simp [Offers, offered, hpc, hi, hempty]

section Gather
variable (hfair : Fair n ev) (hroom : t ≤ blockSize) (hi : i < n)
include hfair hroom hi

omit hfair in
/-- Before the flush a range only shrinks, and an empty buffer stays empty until it does. -/
theorem range_next (hinv : Inv n t e s) (hstage : s.lower.pc.stage = 0) (a : Event) :
    ((s.next a).lower.newRanges i).length ≤ (s.lower.newRanges i).length ∧
      ((s.lower.buffers i).empty = true → s.lower.newRanges i ≠ [] →
        ((s.next a).lower.newRanges i).length < (s.lower.newRanges i).length ∨
          ((s.next a).lower.buffers i).empty = true) := by
  rcases s.next_lower a with hl | ⟨accepted, -, -, hl⟩
  · rw [hl]
    exact ⟨le_rfl, fun hempty _ => Or.inr hempty⟩
  · rw [hl]
    have hrange := hinv.phase.advance_range hstage hroom hi accepted
    exact ⟨hrange.1, fun hempty hne => (hrange.2 hempty hne).imp_right And.right⟩

/-- The flush has not begun, and the range of destination `i` has `l` tuples. -/
def Stuck (n t e i l : ℕ) (s : ShuffleSender) : Prop :=
  Inv n t e s ∧ s.lower.pc.stage = 0 ∧ (s.lower.newRanges i).length = l

/-- The flush has begun, or the range of destination `i` has less than `l` tuples. -/
def Moved (i l : ℕ) (s : ShuffleSender) : Prop :=
  0 < s.lower.pc.stage ∨ (s.lower.newRanges i).length < l

omit hfair in
theorem Stuck.next (h : Stuck n t e i l s) (hl : 0 < l) (a : Event) :
    Moved i l (s.next a) ∨ Stuck n t e i l (s.next a) ∧
      ((s.lower.buffers i).empty = true → ((s.next a).lower.buffers i).empty = true) := by
  obtain ⟨hs, hstage, hlen⟩ := h
  have hne : s.lower.newRanges i ≠ [] := List.length_pos_iff.mp (hlen ▸ hl)
  have hrange := range_next hroom hi hs hstage a
  rw [hlen] at hrange
  rcases Nat.eq_zero_or_pos (s.next a).lower.pc.stage with hzero | hpos
  · rcases hrange.1.lt_or_eq with hlt | heq
    · exact Or.inl (Or.inr hlt)
    · exact Or.inr ⟨⟨hs.next a, hzero, heq⟩,
        fun hempty => (hrange.2 hempty hne).resolve_left heq.not_lt⟩
  · exact Or.inl (Or.inl hpos)

/-- From an empty buffer on, the gather takes from the range, if the flush does not begin. -/
theorem shrinks_of_empty (h : Stuck n t e i l (trace next s ev k)) (hl : 0 < l)
    (hempty : ((trace next s ev k).lower.buffers i).empty = true) :
    ∃ m ≥ k, Moved i l (trace next s ev m) := by
  rcases reaches_or_keeps
    (P := fun s => Stuck n t e i l s ∧ (s.lower.buffers i).empty = true) (Q := Moved i l)
    (fun s' a h' => (h'.1.next hroom hi hl a).imp_right fun hs => ⟨hs.1, hs.2 h'.2⟩)
    ⟨h, hempty⟩ with hmoved | hkept
  · exact hmoved
  obtain ⟨m, hm, hvisit⟩ := visits hfair h.1 zero_le_one h.2.1 (Nat.zero_le (n + 1))
  obtain ⟨⟨hinv₁, hstage₁, hlen₁⟩, hempty₁⟩ := hkept m hm
  have hgather : (trace next s ev m).lower.pc = .gather :=
    ShufflePc.eq_gather hstage₁ (hvisit.resolve_left (by omega)).2
  obtain ⟨m', hm', he, hlower, hinv₂⟩ := exists_attempt hfair hinv₁
  have hout : (trace next s ev m').outcome = some false := by
    simp [outcome, hlower, offered, hgather]
  have hne₁ := List.length_pos_iff.mp (hlen₁ ▸ hl)
  have hlt := ((hinv₁.phase.advance_range hstage₁ hroom hi false).2 hempty₁ hne₁).resolve_right
    fun h => h.1 hgather
  refine ⟨m' + 1, by omega, Or.inr ?_⟩
  rwa [trace, he, execute_lower hout, hlower, ← hlen₁]

/-- A range is taken from, if the flush does not begin. -/
theorem shrinks (h : Stuck n t e i l (trace next s ev k)) (hl : 0 < l) :
    ∃ m ≥ k, Moved i l (trace next s ev m) := by
  by_contra hnone
  have hkept : ∀ m ≥ k, Stuck n t e i l (trace next s ev m) :=
    (reaches_or_keeps (P := Stuck n t e i l)
      (fun s' a h' => (h'.next hroom hi hl a).imp_right And.left) h).resolve_left hnone
  have hfull (m : ℕ) (hm : k ≤ m) : ((trace next s ev m).lower.buffers i).empty = false := by
    by_contra hempty
    obtain ⟨m', hm', hmoved⟩ := shrinks_of_empty hfair hroom hi (hkept m hm) hl
      (Bool.eq_true_of_not_eq_false hempty)
    exact hnone ⟨m', by omega, hmoved⟩
  have hoffers : ∀ m ≥ k, ∃ m' ≥ m, (trace next s ev m').Offers i := by
    intro m hm
    obtain ⟨hinv', hstage', -⟩ := hkept m hm
    obtain ⟨m', hm', hvisit⟩ := visits hfair hinv' zero_le_one hstage' (Nat.succ_le_succ hi.le)
    obtain ⟨hinv₁, hstage₁, -⟩ := hkept m' (by omega)
    refine ⟨m', hm', offers_of_send ?_ (hinv₁.phase.n_eq ▸ hi) (hfull m' (by omega))⟩
    exact ShufflePc.eq_send hstage₁ (hvisit.resolve_left (by omega)).2
  obtain ⟨m, hm, he, hoff, hout⟩ := exists_accepts hfair hi h.1 hoffers
  obtain ⟨hinv₁, hstage₁, -⟩ := hkept m hm
  have hsend : (trace next s ev m).lower.pc = .send i := by
    rcases hoff.cases.2 with ⟨hpc | hpc, -⟩ | hpc
    · exact hpc
    · simp [hpc] at hstage₁
    · simp [hpc] at hstage₁
  have hempty := hfull (m + 1) (by omega)
  rw [trace, he, execute_lower hout, (advance_send hsend true).2.2.2, hinv₁.phase.n_eq] at hempty
  simp [hi] at hempty

/-- A range is used up, if the flush does not begin. -/
theorem drained_or_flushing (hinv : Inv n t e (trace next s ev k)) :
    ∃ m ≥ k, 0 < (trace next s ev m).lower.pc.stage ∨
      (trace next s ev m).lower.newRanges i = [] := by
  induction hl : ((trace next s ev k).lower.newRanges i).length using Nat.strong_induction_on
    generalizing k with
  | h l ih =>
    rcases Nat.eq_zero_or_pos (trace next s ev k).lower.pc.stage with hstage | hpos
    · by_cases hne : (trace next s ev k).lower.newRanges i = []
      · exact ⟨k, le_rfl, Or.inr hne⟩
      · obtain ⟨m, hm, hflush | hlt⟩ := shrinks hfair hroom hi ⟨hinv, hstage, hl⟩
          (hl ▸ List.length_pos_iff.mpr hne)
        · exact ⟨m, hm, Or.inl hflush⟩
        · have hinv' : Inv n t e (trace next s ev m) := keeps (fun _ a h => h.next a) hinv hm
          obtain ⟨m', hm', hend⟩ := ih _ hlt hinv' rfl
          exact ⟨m', by omega, hend⟩
    · exact ⟨k, le_rfl, Or.inl hpos⟩

end Gather

/-- The flush begins, if every destination gets a tuple. -/
theorem exists_flushing (hfair : Fair n ev) (hroom : t ≤ blockSize)
    (hinv : Inv n t 0 (trace next s ev k)) : ∃ m ≥ k, 0 < (trace next s ev m).lower.pc.stage := by
  by_contra! hnever
  have hinvs (m : ℕ) (hm : k ≤ m) : Inv n t 0 (trace next s ev m) :=
    keeps (fun _ a h => h.next a) hinv hm
  have hzero (m : ℕ) (hm : k ≤ m) : (trace next s ev m).lower.pc.stage = 0 :=
    Nat.le_zero.mp (hnever m hm)
  have hdrained (l : ℕ) (hl : l ≤ n) :
      ∃ m ≥ k, ∀ i < l, (trace next s ev m).lower.newRanges i = [] := by
    induction l with
    | zero => exact ⟨k, le_rfl, fun i hi => absurd hi (Nat.not_lt_zero i)⟩
    | succ l ih =>
      obtain ⟨m, hm, hall⟩ := ih (by omega)
      obtain ⟨m', hm', hlast⟩ := drained_or_flushing hfair hroom hl (hinvs m hm)
      have hnil := hlast.resolve_left (hnever m' (by omega)).not_gt
      refine ⟨m', by omega, fun i hi => ?_⟩
      rcases Nat.lt_succ_iff_lt_or_eq.mp hi with hlt | rfl
      · clear hlast hnil
        induction m', hm' using Nat.le_induction with
        | base => exact hall i hlt
        | succ m' hm' ih =>
          have hle := (range_next hroom (by omega : i < n) (hinvs m' (by omega))
            (hzero m' (by omega)) (ev m')).1
          rwa [ih, List.length_nil, Nat.le_zero, List.length_eq_zero_iff] at hle
      · exact hnil
  obtain ⟨m, hm, hall⟩ := hdrained n le_rfl
  have hphase := (hinvs m hm).phase
  have hcount : (trace next s ev m).lower.emptys = n := by
    have hempty := hphase.emptied
    rwa [Nat.add_zero, exhausted_eq_iff.mpr (total_eq_nil_iff.mpr hall)] at hempty
  have hstage := hphase.flushing.mp (hphase.one.mpr hcount)
  rw [hzero m hm] at hstage
  omega

section Flush
variable (hfair : Fair n ev) (hrefused : ∀ k, ∀ i < n, (trace next s ev k).Holds i →
  ∃ m ≥ k, ev m = .execute ∧ (trace next s ev m).Refused i)
include hfair hrefused

/-- The flush gets done with every buffer. -/
theorem exists_ok (hi : i < n) (hinv : Inv n t e (trace next s ev k))
    (hstage : (trace next s ev k).lower.pc.stage = 1) :
    ∃ m ≥ k, 1 < (trace next s ev m).lower.pc.stage ∨ (trace next s ev m).lower.oks i = true := by
  obtain ⟨m, hm, hlast | ⟨hstage', hpos⟩⟩ := visits hfair hinv le_rfl hstage
    (Nat.succ_le_succ hi.le)
  · exact ⟨m, hm, Or.inl hlast⟩
  have hflush := ShufflePc.eq_flush hstage' hpos
  have hinv' : Inv n t e (trace next s ev m) := keeps (fun _ a h => h.next a) hinv hm
  cases hempty : ((trace next s ev m).lower.buffers i).empty with
  | false =>
    obtain ⟨m', hm', he, hpc, hne, hsec, hfull⟩ := hrefused m i hi ⟨hstage', hempty⟩
    have hinv'' : Inv n t e (trace next s ev m') := keeps (fun _ a h => h.next a) hinv' hm'
    have hout : (trace next s ev m').outcome = some false := by
      have hpush (img : Image) : (((trace next s ev m').data i).push img).1 = false := by
        rw [← Bool.not_eq_true, (BlockCircleQueue.push_eq _ img).1, hinv''.capacity, hfull]
        exact lt_irrefl _
      simp [outcome, offered, hpc, hne, hinv''.phase.n_eq, Nat.not_le.mpr hi, hpush, hsec]
    refine ⟨m' + 1, by omega, Or.inr ?_⟩
    rw [trace, he, execute_lower hout, (advance_flush hpc false).2.2.1]
    simp [hinv''.phase.n_eq, hi]
  | true =>
    obtain ⟨m', hm', he, hlower, -⟩ := exists_attempt hfair hinv'
    have hout : (trace next s ev m').outcome = some false := by
      simp [outcome, offered, hlower, hflush, hempty]
    refine ⟨m' + 1, by omega, Or.inr ?_⟩
    rw [trace, he, execute_lower hout, hlower, (advance_flush hflush false).2.2.1]
    simp [hinv'.phase.n_eq, hi]

/-- Once all buffers are done with, the flush ends. -/
theorem exists_closing (hn : 0 < n) (hinv : Inv n t e (trace next s ev k))
    (hstage : 0 < (trace next s ev k).lower.pc.stage) :
    ∃ m ≥ k, 1 < (trace next s ev m).lower.pc.stage := by
  by_contra! hnever
  have hkept (m : ℕ) (hm : k ≤ m) :
      Inv n t e (trace next s ev m) ∧ (trace next s ev m).lower.pc.stage = 1 := by
    have hinv' : Inv n t e (trace next s ev m) ∧ 0 < (trace next s ev m).lower.pc.stage :=
      keeps (P := fun s => Inv n t e s ∧ 0 < s.lower.pc.stage)
        (fun s' a h => ⟨h.1.next a, h.2.trans_le (h.1.stage_next a)⟩) ⟨hinv, hstage⟩ hm
    exact ⟨hinv'.1, le_antisymm (hnever m hm) hinv'.2⟩
  have hoks (l : ℕ) (hl : l ≤ n) :
      ∃ m ≥ k, ∀ i < l, (trace next s ev m).lower.oks i = true := by
    induction l with
    | zero => exact ⟨k, le_rfl, fun i hi => absurd hi (Nat.not_lt_zero i)⟩
    | succ l ih =>
      obtain ⟨m, hm, hall⟩ := ih (by omega)
      obtain ⟨m', hm', hlast⟩ := exists_ok hfair hrefused hl (hkept m hm).1 (hkept m hm).2
      have hok := hlast.resolve_left (hnever m' (by omega)).not_gt
      refine ⟨m', by omega, fun i hi => ?_⟩
      rcases Nat.lt_succ_iff_lt_or_eq.mp hi with hlt | rfl
      · exact keeps (P := fun s : ShuffleSender => s.lower.oks i = true)
          (fun s' a h => oks_next h a) (hall i hlt) hm'
      · exact hok
  obtain ⟨m, hm, hall⟩ := hoks n le_rfl
  obtain ⟨hinv', hstage'⟩ := hkept m hm
  obtain ⟨m', hm', hvisit⟩ := visits hfair hinv' le_rfl hstage' (Nat.zero_le (n + 1))
  have hcheck := hvisit.resolve_left (hnever m' (by omega)).not_gt
  have hpc := ShufflePc.eq_check hcheck.1 hcheck.2
  have hinv'' := (hkept m' (by omega)).1
  obtain ⟨m'', hm'', he, hlower, -⟩ := exists_attempt hfair hinv''
  have hout : (trace next s ev m'').outcome = some false := by
    simp [outcome, offered, hlower, hpc]
  have hdone : 0 < (trace next s ev m').lower.n ∧
      ∀ i < (trace next s ev m').lower.n, (trace next s ev m').lower.oks i = true := by
    rw [hinv''.phase.n_eq]
    exact ⟨hn, fun i hi => keeps (P := fun s : ShuffleSender => s.lower.oks i = true)
      (fun s' a h => oks_next h a) (hall i hi) hm'⟩
  have hle := hnever (m'' + 1) (by omega)
  rw [trace, he, execute_lower hout, hlower, advance_check hpc, if_pos hdone] at hle
  simp [goto] at hle

end Flush

theorem Inv.close_next (h : Inv n t e s) (hpc : s.lower.pc = .close j) (hj : j < n) (a : Event) :
    (s.next a).lower.pc = .close (j + 1) ∨
      Inv n t e (s.next a) ∧ (s.next a).lower.pc = .close j := by
  rcases s.next_lower a with hl | ⟨accepted, -, -, hl⟩
  · exact Or.inr ⟨h.next a, by rw [hl, hpc]⟩
  · have hpc' := (advance_close hpc accepted).1
    rw [h.phase.n_eq, if_neg (by omega), ← hl] at hpc'
    cases accepted with
    | true => exact Or.inl hpc'
    | false => exact Or.inr ⟨h.next a, hpc'⟩

/-- The empty blocks get put. -/
theorem exists_returned_of_close (hfair : Fair n ev) (hinv : Inv n t e (trace next s ev k))
    (hpc : (trace next s ev k).lower.pc = .close j) :
    ∃ m ≥ k, (trace next s ev m).lower.pc = .returned := by
  have hj := hinv.phase.closed j hpc
  induction hd : n - j generalizing j k with
  | zero =>
    obtain ⟨m, hm, he, hlower, hinv'⟩ := exists_attempt hfair hinv
    have hlast : (trace next s ev k).lower.n ≤ j := by
      rw [hinv.phase.n_eq]
      omega
    have hout : (trace next s ev m).outcome = some false := by
      simp [outcome, offered, hlower, hpc, hlast]
    refine ⟨m + 1, by omega, ?_⟩
    rw [trace, he, execute_lower hout, hlower, (advance_close hpc false).1, if_pos hlast]
  | succ d ih =>
    have hlt : j < n := by omega
    have hclose : ∃ m ≥ k, (trace next s ev m).lower.pc = .close (j + 1) := by
      rcases reaches_or_keeps (P := fun s => Inv n t e s ∧ s.lower.pc = .close j)
        (Q := fun s => s.lower.pc = .close (j + 1)) (fun s' a h => h.1.close_next h.2 hlt a)
        ⟨hinv, hpc⟩ with hreach | hkept
      · exact hreach
      have hoffers : ∀ m ≥ k, ∃ m' ≥ m, (trace next s ev m').Offers j := by
        intro m hm
        obtain ⟨hinv', hpc'⟩ := hkept m hm
        refine ⟨m, le_rfl, ?_⟩
        simp [Offers, offered, hpc', hinv'.phase.n_eq, hlt]
      obtain ⟨m, hm, he, -, hout⟩ := exists_accepts hfair hlt hinv hoffers
      obtain ⟨hinv', hpc'⟩ := hkept m hm
      refine ⟨m + 1, by omega, ?_⟩
      rw [trace, he, execute_lower hout, (advance_close hpc' true).1, hinv'.phase.n_eq,
        if_neg (by omega), if_pos rfl]
    obtain ⟨m, hm, hpc'⟩ := hclose
    have hinv' : Inv n t e (trace next s ev m) := keeps (fun _ a h => h.next a) hinv hm
    obtain ⟨m', hm', hret⟩ := ih hinv' hpc' hlt (by omega)
    exact ⟨m', by omega, hret⟩

/-- In the flush, a `put` that fails has met a full column. -/
theorem Inv.refused (h : Inv n t e s) (hi : i < n) (hpc : s.lower.pc = .flush i)
    (hempty : (s.lower.buffers i).empty = false) (hout : s.outcome = some false) : s.Refused i := by
  have hoff : s.lower.offered = some (i, ((s.lower.assemble i).buffers i).image) := by
    simp [offered, hpc, hempty, h.phase.n_eq, Nat.not_le.mpr hi]
  rw [outcome, hoff] at hout
  dsimp only at hout
  split_ifs at hout with hpush hten <;> cases hout
  rw [((s.data i).push_eq _).1, h.capacity] at hpush
  exact ⟨hpc, hempty, hten, le_antisymm (h.length_le i) (Nat.le_of_not_lt hpush)⟩

/-- A buffer that still holds tuples keeps the flush going until it is refused. -/
theorem Holds.next {s : ShuffleSender} (h : s.Holds i) (hinv : Inv n t e s) (hi : i < n) (a : Event)
    (hno : ¬(a = .execute ∧ s.Refused i)) : (s.next a).Holds i := by
  obtain ⟨hstage, hempty⟩ := h
  rcases s.next_lower a with hl | ⟨accepted, ha, hout, hl⟩
  · exact ⟨hl ▸ hstage, hl ▸ hempty⟩
  · rw [Holds, hl]
    cases hpc : s.lower.pc with
    | check =>
      rw [advance_check hpc, if_neg]
      · exact ⟨rfl, hempty⟩
      · rintro ⟨-, hall⟩
        have hdone := (hinv.phase.oks i (hall i (hinv.phase.n_eq ▸ hi))).2
        rw [hempty] at hdone
        cases hdone
    | flush k =>
      obtain ⟨hpc', -, -, hbuf⟩ := advance_flush hpc accepted
      refine ⟨?_, ?_⟩
      · rw [hpc']
        split_ifs <;> rfl
      · rw [hbuf, hempty, Bool.false_or, Bool.and_eq_false_iff]
        by_cases hik : i = k
        · right
          subst hik
          cases accepted with
          | true => rfl
          | false => exact absurd ⟨ha, hinv.refused hi hpc hempty hout⟩ hno
        · left
          simp [hik]
    | gather => simp [hpc] at hstage
    | send k => simp [hpc] at hstage
    | close k => simp [hpc] at hstage
    | returned => simp [hpc] at hstage

/-- The flush begins with a buffer that holds tuples. -/
theorem Inv.holds_next (h : Inv n t e s) (ht : 0 < t) (hstage : s.lower.pc.stage = 0) (a : Event) :
    (s.next a).lower.pc.stage = 0 ∨ ∃ i < n, (s.next a).Holds i := by
  rcases s.next_lower a with hl | ⟨accepted, -, -, hl⟩
  · exact Or.inl (hl ▸ hstage)
  · rcases Nat.eq_zero_or_pos (s.lower.advance accepted).pc.stage with hzero | hpos
    · exact Or.inl (hl ▸ hzero)
    · have hpc : s.lower.pc = .gather := by
        rcases h.phase.advance_position (by omega) accepted with hlt | ⟨heq, -⟩
        · cases hpc : s.lower.pc with
          | gather => rfl
          | send k =>
            rw [(advance_send hpc accepted).1] at hpos
            split_ifs at hpos <;> simp at hpos
          | _ => simp [hpc] at hstage
        · omega
      obtain ⟨hone, i, hi, hempty⟩ := h.phase.exists_full ht hpc hpos
      exact Or.inr ⟨i, hi, by rw [hl]; exact hone, by rw [hl]; exact hempty⟩

/-- After the return, every buffer that the flush found with tuples was refused. -/
theorem exists_refused (hinv : Inv n t e (trace next s ev k)) (hi : i < n)
    (hholds : (trace next s ev k).Holds i) {m : ℕ}
    (hret : (trace next s ev m).lower.pc = .returned) :
    ∃ m ≥ k, ev m = .execute ∧ (trace next s ev m).Refused i := by
  by_contra! hnever
  have hkept (m : ℕ) (hm : k ≤ m) :
      Inv n t e (trace next s ev m) ∧ (trace next s ev m).Holds i := by
    induction m, hm using Nat.le_induction with
    | base => exact ⟨hinv, hholds⟩
    | succ m hm ih =>
      exact ⟨ih.1.next _, ih.2.next ih.1 hi _ fun h => hnever m hm h.1 h.2⟩
  rcases le_total k m with hm | hm
  · have hstage := (hkept m hm).2.1
    simp [hret] at hstage
  · have hret' : (trace next s ev k).lower.pc = .returned := by
      refine keeps (P := fun s : ShuffleSender => s.lower.pc = .returned) (fun s' a h => ?_) hret hm
      rcases s'.next_lower a with hl | ⟨accepted, -, -, hl⟩
      · rwa [hl]
      · rwa [hl, advance_returned h]
    have hstage := hholds.1
    simp [hret'] at hstage

end Runs

section Execute
variable {sort : List Tuple → List Tuple} {n t : ℕ} {junk : ℕ → Memory} {store : ℕ → ℕ → Block}
  {child : List Image} {ev : ℕ → Event}

theorem inv_start (hn : 0 < n) : Inv n t
    (exhausted n (ShuffleLower.prelude sort n t junk child).newRanges)
    (start sort n t junk store child) where
  phase := by
    refine ⟨⟨rfl, fun i => ⟨rfl, rfl⟩, Nat.zero_add _, ?_⟩, ?_, ?_, ?_, ?_⟩
    · simp [start, ShuffleLower.prelude, hn.ne]
    · simp [start, ShuffleLower.prelude]
    · simp [start, ShuffleLower.prelude]
    · simp [start, ShuffleLower.prelude]
    · simp [start, ShuffleLower.prelude]
  seconds := Nat.zero_le _
  capacity _ := rfl

/-- A tuple of the child fits into a block. -/
theorem le_blockSize_of_share {i : ℕ} (hfits : ∀ img ∈ child, img.Fits t)
    (hshare : shareOf n t child i ≠ []) : t ≤ blockSize := by
  obtain ⟨x, hx⟩ := List.exists_mem_of_ne_nil _ hshare
  obtain ⟨img, himg, hximg⟩ := List.mem_flatMap.mp (List.mem_of_mem_filter hx)
  have hcount : 0 < img.count := by
    rw [← Image.tuples_length t img]
    exact List.length_pos_of_mem hximg
  exact (Nat.le_mul_of_pos_left t hcount).trans (hfits img himg)

theorem inv_trace (sort : List Tuple → List Tuple) (t : ℕ) (junk : ℕ → Memory)
    (store : ℕ → ℕ → Block) (child : List Image) (ev : ℕ → Event) (hn : 0 < n) (k : ℕ) :
    Inv n t (exhausted n (ShuffleLower.prelude sort n t junk child).newRanges)
      (trace next (start sort n t junk store child) ev k) :=
  keeps (fun _ a h => h.next a) (inv_start hn) (Nat.zero_le k)

/-- After the return, no range was empty from the start. -/
theorem ne_nil_of_returned (hn : 0 < n) {k : ℕ}
    (hret : (trace next (start sort n t junk store child) ev k).lower.pc = .returned) {i : ℕ}
    (hi : i < n) : (ShuffleLower.prelude sort n t junk child).newRanges i ≠ [] := by
  have hphase := (inv_trace sort t junk store child ev hn k).phase
  have hcount := hphase.one.mp (hphase.flushing.mpr (by simp [hret]))
  have hle := exhausted_le n (trace next (start sort n t junk store child) ev k).lower.newRanges
  rw [← hphase.emptied, hcount] at hle
  exact ne_nil_of_exhausted (Nat.le_zero.mp (Nat.le_of_add_le_add_left hle)) hi

/-- With columns that are popped from again and again, `execute` returns exactly if every
destination gets a tuple and every buffer that still holds tuples in the flush meets a full column
there. -/
theorem returns_iff (hperm : ∀ l, (sort l).Perm l) (hn : n ∣ cpuCore)
    (hfits : ∀ img ∈ child, img.Fits t)
    (hkeys : ∀ x ∈ child.flatMap (Image.tuples t), key x < dataVolume) (hfair : Fair n ev) :
    (∃ k, (trace next (start sort n t junk store child) ev k).lower.pc = .returned) ↔
      (∀ i < n, shareOf n t child i ≠ []) ∧
        ∀ k, ∀ i < n, (trace next (start sort n t junk store child) ev k).Holds i →
          ∃ m ≥ k, ev m = .execute ∧
            (trace next (start sort n t junk store child) ev m).Refused i := by
  have hpos : 0 < n := Nat.pos_of_dvd_of_pos hn (by decide)
  have hp (i : ℕ) : ((ShuffleLower.prelude sort n t junk child).newRanges i).Perm
      (shareOf n t child i) := newRanges_perm hperm hn hfits hkeys i
  have hinv := inv_trace sort t junk store child ev hpos
  constructor
  · rintro ⟨k, hret⟩
    refine ⟨fun i hi hnil => ?_, fun m i hi hholds => exists_refused (hinv m) hi hholds hret⟩
    have hi' := hp i
    rw [hnil, List.perm_nil] at hi'
    exact ne_nil_of_returned hpos hret hi hi'
  · rintro ⟨hshare, hrefused⟩
    have hzero : exhausted n (ShuffleLower.prelude sort n t junk child).newRanges = 0 := by
      refine exhausted_eq_zero fun i hi hnil => hshare i hi ?_
      have hi' := hp i
      rwa [hnil, List.nil_perm] at hi'
    rw [hzero] at hinv
    have hroom := le_blockSize_of_share hfits (hshare 0 hpos)
    obtain ⟨k, -, hk⟩ := exists_flushing hfair hroom (hinv 0)
    obtain ⟨m, -, hm⟩ := exists_closing hfair hrefused hpos (hinv k) hk
    cases hpc : (trace next (start sort n t junk store child) ev m).lower.pc with
    | close j =>
      obtain ⟨m', -, hret⟩ := exists_returned_of_close hfair (hinv m) hpc
      exact ⟨m', hret⟩
    | returned => exact ⟨m, hpc⟩
    | _ => simp [hpc] at hm

/-- `execute` makes a step, then every column is popped from, and so on. -/
def rounds (n k : ℕ) : Event :=
  if k % (n + 1) = 0 then .execute else .pop (k % (n + 1) - 1)

theorem fair_rounds (n : ℕ) : Fair n (rounds n) where
  executes k := ⟨k * (n + 1), Nat.le_mul_of_pos_right k n.succ_pos, by simp [rounds]⟩
  drains i hi k := by
    have hmod : (k * (n + 1) + (i + 1)) % (n + 1) = i + 1 := by
      rw [Nat.mul_add_mod_self_right, Nat.mod_eq_of_lt (by omega)]
    refine ⟨k * (n + 1) + (i + 1), ?_, by simp [rounds, hmod]⟩
    exact (Nat.le_mul_of_pos_right k n.succ_pos).trans (Nat.le_add_right _ _)

/-- When `execute` makes a step, the columns are empty. -/
theorem columns_rounds (s : ShuffleSender) (hempty : ∀ i, (s.data i).contents = []) (k i : ℕ)
    (hi : i < n) : ((trace next s (rounds n) k).data i).contents.length ≤ 1 ∧
      (k % (n + 1) = 0 ∨ i + 1 < k % (n + 1) →
        ((trace next s (rounds n) k).data i).contents.length = 0) := by
  induction k with
  | zero => simp [trace, hempty]
  | succ k ih =>
    rw [trace]
    generalize trace next s (rounds n) k = s' at ih ⊢
    have hlt : k % (n + 1) < n + 1 := Nat.mod_lt k n.succ_pos
    have hmod : (k + 1) % (n + 1) = if k % (n + 1) = n then 0 else k % (n + 1) + 1 := by
      rw [Nat.add_mod, Nat.mod_eq_of_lt (show 1 < n + 1 by omega)]
      split_ifs with hr
      · rw [hr, Nat.mod_self]
      · exact Nat.mod_eq_of_lt (by omega)
    rw [hmod, rounds]
    generalize k % (n + 1) = r at *
    by_cases hzero : r = 0
    · have hle := length_execute_le s' i
      rw [ih.2 (Or.inl hzero)] at hle
      rw [if_pos hzero, hzero, if_neg (by omega)]
      exact ⟨hle, fun h => by omega⟩
    · rw [if_neg hzero]
      by_cases hik : i = r - 1
      · have hpop : ((s'.next (.pop (r - 1))).data i).contents.length = 0 := by
          simp only [next, ← hik, Function.update_self, (s'.data i).pop_eq.2.2, List.length_tail]
          omega
        exact ⟨hpop.trans_le zero_le_one, fun _ => hpop⟩
      · have hsame : (s'.next (.pop (r - 1))).data i = s'.data i :=
          Function.update_of_ne hik _ _
        rw [hsame]
        refine ⟨ih.1, fun h => ih.2 (Or.inr ?_)⟩
        clear hmod hlt
        by_cases hr : r = n
        · omega
        · rw [if_neg hr] at h
          omega

/-- For no input `execute` always returns: a block that is accepted each time is put again and
again. -/
theorem exists_fair_forever (hn : 0 < n) (ht : 0 < t) : ∃ ev, Fair n ev ∧
    ∀ k, (trace next (start sort n t junk store child) ev k).lower.pc ≠ .returned := by
  refine ⟨rounds n, fair_rounds n, fun k hret => ?_⟩
  have hinv := inv_trace sort t junk store child (rounds n) hn
  have hroom (k i : ℕ) (hi : i < n) : ¬(rounds n k = .execute ∧
      (trace next (start sort n t junk store child) (rounds n) k).Refused i) := by
    rintro ⟨he, -, -, -, hfull⟩
    have hzero : k % (n + 1) = 0 := by
      by_contra hne
      simp [rounds, hne] at he
    rw [(columns_rounds (start sort n t junk store child) (fun _ => rfl) k i hi).2
      (Or.inl hzero)] at hfull
    exact absurd hfull (by decide)
  have hholds : (trace next (start sort n t junk store child) (rounds n) k).lower.pc.stage = 0 ∨
      ∃ i < n, (trace next (start sort n t junk store child) (rounds n) k).Holds i := by
    clear hret
    induction k with
    | zero => exact Or.inl rfl
    | succ k ih =>
      rcases ih with hstage | ⟨i, hi, hholds⟩
      · exact (hinv k).holds_next ht hstage _
      · exact Or.inr ⟨i, hi, hholds.next (hinv k) hi _ (hroom k i hi)⟩
  rcases hholds with hstage | ⟨i, hi, hstage, -⟩
  · simp [hret] at hstage
  · simp [hret] at hstage

end Execute

/-- The first pops come after 90 steps of `execute`. -/
def lateRounds (n k : ℕ) : Event := if k < 90 then .execute else rounds n k

theorem fair_lateRounds (n : ℕ) : Fair n (lateRounds n) where
  executes k := by
    obtain ⟨m, hm, he⟩ := (fair_rounds n).executes k
    refine ⟨m, hm, ?_⟩
    change lateRounds n m = .execute
    rw [lateRounds, he, ite_self]
  drains i hi k := by
    obtain ⟨m, hm, he⟩ := (fair_rounds n).drains i hi (k + 90)
    refine ⟨m, by omega, ?_⟩
    change lateRounds n m = .pop i
    rw [lateRounds, if_neg (by omega), he]

/-- One destination. -/
def startOne (child : List Image) : ShuffleSender :=
  start descending 1 16 (fun _ _ => 0) (fun _ _ => Block.make (fun _ => 0) blockSize 16) child

/-- The column of the only destination is full before the first pop. -/
theorem returns_late : Fair 1 (lateRounds 1) ∧
    (∃ k, (trace next (startOne [oneTuple 7]) (lateRounds 1) k).lower.pc = .returned) ∧
    shareOf 1 16 [oneTuple 7] 0 ≠ [] ∧
    ∀ k, (trace next (startOne [oneTuple 7]) (lateRounds 1) k).Holds 0 →
      ∃ m ≥ k, lateRounds 1 m = .execute ∧
        (trace next (startOne [oneTuple 7]) (lateRounds 1) m).Refused 0 := by
  have hret : ∃ k, (trace next (startOne [oneTuple 7]) (lateRounds 1) k).lower.pc = .returned :=
    ⟨100, by decide +kernel⟩
  obtain ⟨hshare, hrefused⟩ := (returns_iff descending_perm (by decide)
    (by simp [Image.Fits, oneTuple_count, blockSize]) (by decide +kernel)
    (fair_lateRounds 1)).mp hret
  exact ⟨fair_lateRounds 1, hret, hshare 0 one_pos, fun k => hrefused k 0 one_pos⟩

/-- Without a tuple the sender never returns, and with one it need not. -/
theorem execute_loops :
    (∀ ev k, (trace next (startOne []) ev k).lower.pc ≠ .returned) ∧
      (∀ x ∈ [oneTuple 7].flatMap (Image.tuples 16), key x < dataVolume) ∧
      ∃ ev, Fair 1 ev ∧ ∀ k, (trace next (startOne [oneTuple 7]) ev k).lower.pc ≠ .returned := by
  refine ⟨fun ev k hret => ?_, by decide +kernel, exists_fair_forever one_pos (by decide)⟩
  refine ne_nil_of_returned one_pos hret one_pos ?_
  decide +kernel

end ShuffleSender
end Mosito
