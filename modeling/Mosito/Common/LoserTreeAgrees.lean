import Mosito.Common.LoserTreeAccess
import Mosito.Common.PCBuffer

/-! A run of the loser tree that keeps inside of its arrays and its `int`s has the entries of the
loser tree without such checks, whatever the fresh array holds. With up to `2^30` players every run
is of this kind, so it is a tournament. -/
namespace Mosito
namespace AccessTree
variable {α : Type}

/-- The written entries are those of `u`. -/
structure Agrees (t : AccessTree α) (u : LoserTree α) : Prop where
  n_eq : u.n = t.n
  low : u.lowExt = t.lowExt
  off : u.offset = t.offset
  keys : u.L = t.L
  entries : ∀ p v, t.B p = some v → u.B p = v

variable {compare : α → α → Bool} {n s p fuel left right temp1 i bound v f : ℕ}
  {t t₁ : AccessTree α} {u : LoserTree α}

theorem Agrees.readB (h : Agrees t u) (hv : t.readB p = some v) : u.B p = v := by
  unfold AccessTree.readB at hv
  split_ifs at hv
  exact h.entries p v hv

theorem Agrees.writeB (h : Agrees t u) (ht : t.writeB p v = some t₁) :
    Agrees t₁ { u with B := Function.update u.B p v } := by
  unfold AccessTree.writeB at ht
  split_ifs at ht
  cases ht
  refine ⟨h.n_eq, h.low, h.off, h.keys, fun q w hw => ?_⟩
  dsimp only at hw ⊢
  rcases eq_or_ne q p with rfl | hq
  · rw [Function.update_self] at hw ⊢
    exact Option.some.inj hw
  · rw [Function.update_of_ne hq] at hw ⊢
    exact h.entries q w hw

theorem Agrees.readL (h : Agrees t u) {x : α} (hx : t.readL i = some x) : u.L i = x := by
  unfold AccessTree.readL at hx
  split_ifs at hx
  rw [h.keys]
  exact Option.some.inj hx

theorem Agrees.win (h : Agrees t u) (hv : t.win compare left right = some v) :
    LoserTree.win compare u.L left right = v := by
  obtain ⟨x, hx, hv⟩ := Option.bind_eq_some_iff.mp hv
  obtain ⟨y, hy, hv⟩ := Option.bind_eq_some_iff.mp hv
  rw [LoserTree.win, h.readL hx, h.readL hy]
  split_ifs at hv ⊢ <;> exact Option.some.inj hv

theorem Agrees.lose (h : Agrees t u) (hv : t.lose compare left right = some v) :
    LoserTree.lose compare u.L left right = v := by
  obtain ⟨x, hx, hv⟩ := Option.bind_eq_some_iff.mp hv
  obtain ⟨y, hy, hv⟩ := Option.bind_eq_some_iff.mp hv
  rw [LoserTree.lose, h.readL hx, h.readL hy]
  split_ifs at hv ⊢ <;> exact Option.some.inj hv

theorem Agrees.playUp (h : Agrees t u) (hf : p ≤ f)
    (ht : t.playUp compare fuel p temp1 = some t₁) :
    Agrees t₁ { u with B := LoserTree.playUp compare u.L f p temp1 u.B } := by
  induction fuel generalizing p temp1 t u f with
  | zero => cases ht
  | succ fuel ih =>
    rw [AccessTree.playUp] at ht
    by_cases hodd : 1 < p ∧ p % 2 = 1
    · rw [if_pos hodd] at ht
      obtain ⟨other, hother, ht⟩ := Option.bind_eq_some_iff.mp ht
      obtain ⟨temp2, htemp2, ht⟩ := Option.bind_eq_some_iff.mp ht
      obtain ⟨other', hother', ht⟩ := Option.bind_eq_some_iff.mp ht
      obtain ⟨loser, hloser, ht⟩ := Option.bind_eq_some_iff.mp ht
      obtain ⟨t₂, ht₂, ht⟩ := Option.bind_eq_some_iff.mp ht
      obtain ⟨g, rfl⟩ : ∃ g, f = g + 1 := Nat.exists_eq_succ_of_ne_zero (by omega)
      rw [LoserTree.playUp, if_pos hodd, h.readB hother, h.win htemp2]
      rw [← h.readB hother', h.readB hother] at hloser
      rw [h.lose hloser]
      exact ih (h.writeB ht₂) (by omega) ht
    · rw [if_neg hodd] at ht
      cases f with
      | zero => exact h.writeB ht
      | succ f =>
        rw [LoserTree.playUp, if_neg hodd]
        exact h.writeB ht

theorem Agrees.play (h : Agrees t u) (ht : t.play compare p left right = some t₁) :
    Agrees t₁ (LoserTree.play compare p left right u) := by
  obtain ⟨loser, hloser, ht⟩ := Option.bind_eq_some_iff.mp ht
  obtain ⟨t₂, ht₂, ht⟩ := Option.bind_eq_some_iff.mp ht
  obtain ⟨temp1, htemp1, ht⟩ := Option.bind_eq_some_iff.mp ht
  have h₂ := h.writeB ht₂
  have hwin := h₂.win htemp1
  dsimp only at hwin
  rw [LoserTree.play, h.lose hloser, hwin]
  exact h₂.playUp le_rfl ht

theorem Agrees.playFrom {parent : ℕ → Option ℕ} {parent' : ℕ → ℕ}
    (hpar : ∀ j q, parent j = some q → parent' j = q) (h : Agrees t u) (hf : bound < i + 2 * f)
    (ht : playFrom compare parent bound fuel i t = some t₁) :
    Agrees t₁ (LoserTree.playFrom compare parent' bound f i u) := by
  induction fuel generalizing i t u f with
  | zero => cases ht
  | succ fuel ih =>
    rw [AccessTree.playFrom] at ht
    by_cases hle : i ≤ bound
    · rw [if_pos hle] at ht
      obtain ⟨q, hq, ht⟩ := Option.bind_eq_some_iff.mp ht
      obtain ⟨t₂, ht₂, ht⟩ := Option.bind_eq_some_iff.mp ht
      obtain ⟨j, hj, ht⟩ := Option.bind_eq_some_iff.mp ht
      obtain rfl := eq_of_int hj
      obtain ⟨g, rfl⟩ : ∃ g, f = g + 1 := Nat.exists_eq_succ_of_ne_zero (by omega)
      rw [LoserTree.playFrom, if_pos hle, hpar i q hq]
      exact ih (h.play ht₂) (by omega) ht
    · rw [if_neg hle] at ht
      cases ht
      cases f with
      | zero => exact h
      | succ f =>
        rw [LoserTree.playFrom, if_neg hle]
        exact h

theorem lowestLevel_agrees (hf : n ≤ f + s) (hpos : 0 < s) (h : lowestLevel n fuel s = some v) :
    LoserTree.lowestLevel n f s = v := by
  induction fuel generalizing s f with
  | zero => cases h
  | succ fuel ih =>
    obtain ⟨twice, htwice, h⟩ := Option.bind_eq_some_iff.mp h
    obtain rfl := eq_of_int htwice
    by_cases hle : 2 * s ≤ n - 1
    · rw [if_pos hle] at h
      obtain ⟨g, rfl⟩ : ∃ g, f = g + 1 := Nat.exists_eq_succ_of_ne_zero (by omega)
      rw [LoserTree.lowestLevel, if_pos hle]
      exact ih (by omega) (by omega) h
    · rw [if_neg hle] at h
      cases h
      cases f with
      | zero => rfl
      | succ f => rw [LoserTree.lowestLevel, if_neg hle]

theorem Agrees.lowParent (h : Agrees t u) (hp : t.lowParent i = some p) :
    (i + u.offset) / 2 = p := by
  obtain ⟨x, hx, rfl⟩ := Option.map_eq_some_iff.mp hp
  rw [h.off, eq_of_int hx]

theorem Agrees.highParent (h : Agrees t u) (hp : t.highParent i = some p) :
    (i - u.lowExt + u.n - 1) / 2 = p := by
  obtain ⟨x, hx, rfl⟩ := Option.map_eq_some_iff.mp hp
  rw [h.low, h.n_eq, eq_of_int hx]

theorem Agrees.playLow (h : Agrees t u) (hlow : t.lowExt ≤ 2 * t.n)
    (ht : t.playLow compare = some t₁) : Agrees t₁ (LoserTree.playLow compare u) := by
  rw [LoserTree.playLow, h.low, h.n_eq]
  exact h.playFrom (fun j q hq => h.lowParent hq) (by omega) ht

theorem Agrees.playHigh (h : Agrees t u) (ht : t.playHigh compare = some t₁) :
    Agrees t₁ (LoserTree.playHigh compare u) := by
  unfold AccessTree.playHigh at ht
  unfold LoserTree.playHigh
  rw [h.n_eq, h.low]
  have hpar : ∀ j q, t.highParent j = some q → (j - t.lowExt + t.n - 1) / 2 = q := by
    intro j q hq
    have := h.highParent hq
    rwa [h.low, h.n_eq] at this
  dsimp only
  split_ifs at ht ⊢ with hodd
  · obtain ⟨other, hother, ht⟩ := Option.bind_eq_some_iff.mp ht
    obtain ⟨right, hright, ht⟩ := Option.bind_eq_some_iff.mp ht
    obtain ⟨t₂, ht₂, ht⟩ := Option.bind_eq_some_iff.mp ht
    obtain ⟨j, hj, ht⟩ := Option.bind_eq_some_iff.mp ht
    obtain rfl := eq_of_int hj
    rw [h.readB hother, eq_of_int hright]
    exact (h.play ht₂).playFrom hpar (by omega) ht
  · obtain ⟨j, hj, ht⟩ := Option.bind_eq_some_iff.mp ht
    obtain rfl := eq_of_int hj
    exact h.playFrom hpar (by omega) ht

theorem initializeTree_agrees {A : ℕ → α} (junk : ℕ → ℕ)
    (ht : initializeTree compare A n = some t) :
    Agrees t (LoserTree.initializeTree compare junk A n) := by
  obtain ⟨s, hs, ht⟩ := Option.bind_eq_some_iff.mp ht
  obtain ⟨lowExt, hlow, ht⟩ := Option.bind_eq_some_iff.mp ht
  obtain ⟨twice, htwice, ht⟩ := Option.bind_eq_some_iff.mp ht
  obtain ⟨t₁, ht₁, ht⟩ := Option.bind_eq_some_iff.mp ht
  obtain ⟨t₂, ht₂, ht⟩ := Option.bind_eq_some_iff.mp ht
  obtain ⟨w, -, ht⟩ := Option.bind_eq_some_iff.mp ht
  cases ht
  obtain rfl := eq_of_int hlow
  obtain rfl := eq_of_int htwice
  rw [LoserTree.initializeTree, lowestLevel_agrees (by omega) (by decide) hs]
  have hstart : Agrees ⟨n, 2 * (n - s), 2 * s - 1, fun _ => none, A⟩
      ⟨n, 2 * (n - s), 2 * s - 1, junk, A⟩ := by
    refine ⟨rfl, rfl, rfl, rfl, fun p v hv => ?_⟩
    cases hv
  exact (hstart.playLow (by dsimp only; omega) ht₁).playHigh ht₂

theorem Agrees.replayUp (h : Agrees t u) (hf : p ≤ f)
    (ht : t.replayUp compare fuel p = some t₁) :
    Agrees t₁ { u with B := LoserTree.replayUp compare u.L f p u.B } := by
  induction fuel generalizing p t u f with
  | zero => cases ht
  | succ fuel ih =>
    rw [AccessTree.replayUp] at ht
    by_cases hq : 1 ≤ p / 2
    · rw [if_pos hq] at ht
      obtain ⟨other, hother, ht⟩ := Option.bind_eq_some_iff.mp ht
      obtain ⟨w, hw, ht⟩ := Option.bind_eq_some_iff.mp ht
      obtain ⟨temp, htemp, ht⟩ := Option.bind_eq_some_iff.mp ht
      obtain ⟨other', hother', ht⟩ := Option.bind_eq_some_iff.mp ht
      obtain ⟨w', hw', ht⟩ := Option.bind_eq_some_iff.mp ht
      obtain ⟨loser, hloser, ht⟩ := Option.bind_eq_some_iff.mp ht
      obtain ⟨t₂, ht₂, ht⟩ := Option.bind_eq_some_iff.mp ht
      obtain ⟨t₃, ht₃, ht⟩ := Option.bind_eq_some_iff.mp ht
      obtain ⟨g, rfl⟩ : ∃ g, f = g + 1 := Nat.exists_eq_succ_of_ne_zero (by omega)
      rw [LoserTree.replayUp, if_pos hq, h.readB hother, h.readB hw, h.win htemp]
      rw [← h.readB hother', ← h.readB hw', h.readB hother, h.readB hw] at hloser
      rw [h.lose hloser]
      exact ih ((h.writeB ht₂).writeB ht₃) (by omega) ht
    · rw [if_neg hq] at ht
      cases ht
      cases f with
      | zero => exact h
      | succ f =>
        rw [LoserTree.replayUp, if_neg hq]
        exact h

theorem Agrees.parent (h : Agrees t u) (hp : t.parent i = some p) :
    (if i ≤ u.lowExt then (i + u.offset) / 2 else (i - u.lowExt + u.n - 1) / 2) = p := by
  unfold AccessTree.parent at hp
  rw [h.low]
  split_ifs at hp ⊢ with hle
  · exact h.lowParent hp
  · rw [← h.low]
    exact h.highParent hp

theorem Agrees.replay (h : Agrees t u) (ht : t.replay compare i = some t₁) :
    Agrees t₁ (LoserTree.replay compare i u) := by
  obtain ⟨p, hpar, ht⟩ := Option.bind_eq_some_iff.mp ht
  obtain ⟨other, hother, ht⟩ := Option.bind_eq_some_iff.mp ht
  obtain ⟨w, hw, ht⟩ := Option.bind_eq_some_iff.mp ht
  obtain ⟨t₂, ht₂, ht⟩ := Option.bind_eq_some_iff.mp ht
  obtain ⟨other', hother', ht⟩ := Option.bind_eq_some_iff.mp ht
  obtain ⟨loser, hloser, ht⟩ := Option.bind_eq_some_iff.mp ht
  obtain ⟨t₃, ht₃, ht⟩ := Option.bind_eq_some_iff.mp ht
  obtain ⟨t₄, ht₄, ht⟩ := Option.bind_eq_some_iff.mp ht
  obtain ⟨w', -, ht⟩ := Option.bind_eq_some_iff.mp ht
  obtain ⟨x, -, ht⟩ := Option.bind_eq_some_iff.mp ht
  cases ht
  have h₂ := h.writeB ht₂
  have hread := h₂.readB hother'
  have hlose := h₂.lose hloser
  dsimp only at hread hlose
  rw [LoserTree.replay, h.parent hpar, h.readB hother, h.win hw, hread, hlose]
  exact (h₂.writeB ht₃).replayUp le_rfl ht₄

theorem Agrees.advance (h : Agrees t u) {x : α} (ht : t.advance compare x = some t₁) :
    Agrees t₁ (LoserTree.advance compare u x) := by
  obtain ⟨w, hw, ht⟩ := Option.bind_eq_some_iff.mp ht
  obtain ⟨t₂, ht₂, ht⟩ := Option.bind_eq_some_iff.mp ht
  obtain ⟨w', hw', ht⟩ := Option.bind_eq_some_iff.mp ht
  have hw := h.readB hw
  unfold writeL at ht₂
  split_ifs at ht₂
  cases ht₂
  have h₂ : Agrees { t with L := Function.update t.L w x } (LoserTree.load w x u) :=
    ⟨h.n_eq, h.low, h.off, by rw [LoserTree.load, h.keys], h.entries⟩
  have hw' : u.B 0 = w' := h₂.readB hw'
  rw [LoserTree.advance, LoserTree.winner, hw]
  exact (hw.symm.trans hw') ▸ h₂.replay ht

theorem Agrees.advances (h : Agrees t u) {news : List α}
    (ht : news.foldlM (AccessTree.advance compare) t = some t₁) :
    Agrees t₁ (news.foldl (LoserTree.advance compare) u) := by
  induction news generalizing t u with
  | nil =>
    cases ht
    exact h
  | cons x news ih =>
    rw [List.foldlM_cons] at ht
    obtain ⟨t₂, ht₂, ht⟩ := Option.bind_eq_some_iff.mp ht
    exact ih (h.advance ht₂) ht

/-- The run has the entries of the loser tree, whatever the fresh array holds. -/
theorem run_agrees {A : ℕ → α} {news : List α} (junk : ℕ → ℕ)
    (ht : run compare A n news = some t) :
    Agrees t (news.foldl (LoserTree.advance compare)
      (LoserTree.initializeTree compare junk A n)) := by
  obtain ⟨t₀, ht₀, ht⟩ := Option.bind_eq_some_iff.mp ht
  exact (initializeTree_agrees junk ht₀).advances ht

/-- The tree of a played tournament of `n` players: the winner has a least key, the entries name
every player once, and each match was played between the winners below it and keeps the loser. -/
structure Tournament (n : ℕ) (t : AccessTree Tuple) : Prop where
  winner : ∃ w, t.winner = some w ∧ 1 ≤ w ∧ w ≤ n ∧
    ∀ i, 1 ≤ i → i ≤ n → key (t.L w) ≤ key (t.L i)
  entries : ((List.range n).map t.B).Perm ((List.range' 1 n).map some)
  played : ∃ s W B, Tournament.Shape n s ∧ t.lowExt = 2 * (n - s) ∧ t.offset = 2 * s - 1 ∧
    (∀ p < n, t.B p = some (B p)) ∧ Tournament.Played n s (fun i => key (t.L i)) W B

theorem Agrees.tournament {t : AccessTree Tuple} {u : LoserTree Tuple} (h : Agrees t u)
    (hvalid : u.Valid key) (hwritten : ∀ p < t.n, t.Written p) : Tournament t.n t := by
  have hB : ∀ p < t.n, t.B p = some (u.B p) := by
    intro p hp
    obtain ⟨v, hv, -⟩ := hwritten p hp
    rw [hv, h.entries p v hv]
  obtain ⟨h1, hle⟩ := hvalid.winner_bounds
  have hn := h.n_eq
  refine ⟨⟨u.winner, ?_, h1, hn ▸ hle, fun i hi hin => ?_⟩, ?_, ?_⟩
  · have hpos : 0 < t.n := by omega
    exact (if_pos hpos).trans (hB 0 hpos)
  · rw [← h.keys]
    exact hvalid.winning_le hi (hn.symm ▸ hin)
  · have hmap : (List.range t.n).map t.B = ((List.range t.n).map u.B).map some := by
      rw [List.map_map]
      exact List.map_congr_left fun p hp => hB p (List.mem_range.mp hp)
    rw [hmap, ← hn]
    exact hvalid.losers_perm.map some
  · obtain ⟨s, W, hs, hlow, hoff, hplayed⟩ := hvalid
    rw [hn] at hs hlow hplayed
    refine ⟨s, W, u.B, hs, h.low ▸ hlow, h.off ▸ hoff, hB, ?_⟩
    rw [← h.keys]
    exact hplayed

/-- Along every sequence of merge steps of up to `2^30` players the tree is the tournament of the
current tuples. -/
theorem advances_tournament (A : ℕ → Tuple) {n : ℕ} (hn : 2 ≤ n) (hmax : n ≤ 2 ^ 30)
    (news : List Tuple) : ∃ t, run compareTemp A n news = some t ∧ Tournament n t := by
  obtain ⟨t₀, s, hinit, hfull, hsize, -⟩ := initializeTree_full compareTemp A hn hmax
  obtain ⟨t, hadv, hfull'⟩ := advances_full compareTemp hfull (hsize ▸ hmax) news
  obtain ⟨hvalid, -, hn'⟩ := LoserTree.initializeTree_valid compareTemp_iff (fun _ => 0) A hn
  obtain ⟨hvalid', hn''⟩ := LoserTree.advances_valid compareTemp_iff hvalid news
  have hrun : run compareTemp A n news = some t := by
    rw [run, hinit]
    exact hadv
  have hagrees := run_agrees (fun _ => 0) hrun
  have htn : t.n = n := hagrees.n_eq.symm.trans (hn''.trans hn')
  exact ⟨t, hrun, htn ▸ hagrees.tournament hvalid' hfull'.written⟩

theorem advances_tournament_three : ∃ t,
    run compareTemp (fun i => longTuple (5 - UInt8.ofNat i)) 3 [longTuple 9] = some t ∧
      t.winner = some 2 ∧ Tournament 3 t := by
  obtain ⟨t, hrun, ht⟩ := advances_tournament (fun i => longTuple (5 - UInt8.ofNat i))
    (n := 3) (by decide) (by decide) [longTuple 9]
  have hwinner : (run compareTemp (fun i => longTuple (5 - UInt8.ofNat i)) 3 [longTuple 9]).bind
      AccessTree.winner = some 2 := by decide +kernel
  rw [hrun] at hwinner
  exact ⟨t, hrun, hwinner, ht⟩

/-- With one player more, the measures of the tree leave the range of an `int`. -/
theorem not_advances_tournament : ¬ ∀ (A : ℕ → Tuple) (n : ℕ), 2 ≤ n → ∀ news : List Tuple,
    ∃ t, run compareTemp A n news = some t ∧ Tournament n t := by
  intro h
  obtain ⟨t, hrun, -⟩ := h (fun _ => longTuple 0) (2 ^ 30 + 1) (by decide) []
  rw [run, initializeTree, show 1 = 2 ^ 0 from rfl, lowestLevel_none (by decide) (by decide)]
    at hrun
  cases hrun

end AccessTree
end Mosito
