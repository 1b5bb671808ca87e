import Mosito.Lib.Tournament

/-! The loser tree of the k-way merge. `B` keeps player numbers, `L` the players'
current tuples; the comparator is a parameter of every operation. The numbers are exact here. The
source has `int`s, which are enough for up to `2^30` players: for more, the loop over `s` in
`initialize` overflows. A buffer has a column for each host, so it stays far below. -/
namespace Mosito
open Tournament

structure LoserTree (α : Type) where
  n : ℕ
  lowExt : ℕ
  offset : ℕ
  B : ℕ → ℕ
  L : ℕ → α

namespace LoserTree
variable {α : Type} (compare : α → α → Bool)

def win (A : ℕ → α) (left right : ℕ) : ℕ := if compare (A left) (A right) then left else right

def lose (A : ℕ → α) (left right : ℕ) : ℕ := if !compare (A left) (A right) then left else right

/-- The climb of `play` with the winner `temp1` of match `p`; `p` steps are enough. -/
def playUp (A : ℕ → α) : ℕ → ℕ → ℕ → (ℕ → ℕ) → ℕ → ℕ
  | 0, p, temp1, B => Function.update B (p / 2) temp1
  | fuel + 1, p, temp1, B =>
      if 1 < p ∧ p % 2 = 1 then
        playUp A fuel (p / 2) (win compare A temp1 (B (p / 2)))
          (Function.update B (p / 2) (lose compare A temp1 (B (p / 2))))
      else Function.update B (p / 2) temp1

def play (p left right : ℕ) (t : LoserTree α) : LoserTree α :=
  let B := Function.update t.B p (lose compare t.L left right)
  { t with B := playUp compare t.L p p (win compare t.L left right) B }

/-- `for(s=1;2*s<=n-1;s+=s)`. -/
def lowestLevel (n : ℕ) : ℕ → ℕ → ℕ
  | 0, s => s
  | fuel + 1, s => if 2 * s ≤ n - 1 then lowestLevel n fuel (s + s) else s

/-- `for(;i<=bound;i+=2) play(parent(i),i-1,i)`. -/
def playFrom (parent : ℕ → ℕ) (bound : ℕ) : ℕ → ℕ → LoserTree α → LoserTree α
  | 0, _, t => t
  | fuel + 1, i, t =>
      if i ≤ bound then playFrom parent bound fuel (i + 2) (play compare (parent i) (i - 1) i t)
      else t

/-- The matches of the leaves on the lowest level. -/
def playLow (t : LoserTree α) : LoserTree α :=
  playFrom compare (fun i => (i + t.offset) / 2) t.lowExt t.n 2 t

/-- The matches of the leaves above the lowest level. With an odd number of players the
first of these leaves meets the winner that waits at `B[(n-1)/2]`. -/
def playHigh (t : LoserTree α) : LoserTree α :=
  let parent := fun i => (i - t.lowExt + t.n - 1) / 2
  if t.n % 2 = 1 then
    playFrom compare parent t.n t.n (t.lowExt + 3)
      (play compare (t.n / 2) (t.B ((t.n - 1) / 2)) (t.lowExt + 1) t)
  else playFrom compare parent t.n t.n (t.lowExt + 2) t

/-- `initialize`; `junk` is the fresh array. -/
def initializeTree (junk : ℕ → ℕ) (A : ℕ → α) (size : ℕ) : LoserTree α :=
  let s := lowestLevel size size 1
  playHigh compare (playLow compare ⟨size, 2 * (size - s), 2 * s - 1, junk, A⟩)

/-- The climb of `replay` from match `p`, with the winner in `B 0`. -/
def replayUp (A : ℕ → α) : ℕ → ℕ → (ℕ → ℕ) → ℕ → ℕ
  | 0, _, B => B
  | fuel + 1, p, B =>
      if 1 ≤ p / 2 then
        let temp := win compare A (B (p / 2)) (B 0)
        replayUp A fuel (p / 2)
          (Function.update (Function.update B (p / 2) (lose compare A (B (p / 2)) (B 0))) 0 temp)
      else B

/-- The tree after `replay(i)`. -/
def replay (i : ℕ) (t : LoserTree α) : LoserTree α :=
  let p := if i ≤ t.lowExt then (i + t.offset) / 2 else (i - t.lowExt + t.n - 1) / 2
  let B := Function.update t.B 0 (win compare t.L i (t.B p))
  { t with B := replayUp compare t.L p p (Function.update B p (lose compare t.L i (B p))) }

def winner (t : LoserTree α) : ℕ := t.B 0

/-- `Win()`. -/
def winning (t : LoserTree α) : α := t.L (t.B 0)

def load (win : ℕ) (newOne : α) (t : LoserTree α) : LoserTree α :=
  { t with L := Function.update t.L win newOne }

/-- A merge step: the winner's tuple is replaced and its matches are played again. -/
def advance (t : LoserTree α) (newOne : α) : LoserTree α :=
  replay compare t.winner (load t.winner newOne t)

section Compare
variable {κ : Type} [LinearOrder κ] {f : α → κ} {compare}
  (hcmp : ∀ x y, compare x y = true ↔ f x ≤ f y)
include hcmp

theorem win_lose_outcome (A : ℕ → α) (a b : ℕ) :
    Outcome (fun i => f (A i)) a b (win compare A a b) (lose compare A a b) := by
  unfold win lose
  by_cases h : compare (A a) (A b) = true
  · simp only [h, ↓reduceIte, Bool.not_true, Bool.false_eq_true]
    exact ⟨Or.inl ⟨rfl, rfl⟩, (hcmp _ _).mp h⟩
  · have hlt : f (A b) < f (A a) := lt_of_not_ge fun hh => h ((hcmp _ _).mpr hh)
    simp only [Bool.not_eq_true] at h
    simp only [h, Bool.false_eq_true, ↓reduceIte, Bool.not_false]
    exact ⟨Or.inr ⟨rfl, rfl⟩, hlt.le⟩

end Compare

/-- The first `m` players have played all matches below which no later player is. -/
structure Built {κ : Type} [LinearOrder κ] (n s m : ℕ) (key : ℕ → κ) (W B : ℕ → ℕ) : Prop where
  building : Building n s key (fun r => last n s r ≤ m) none W B
  root : last n s 1 ≤ m → B 0 = W 1

section Initialize
variable {κ : Type} [LinearOrder κ] {f : α → κ} {compare}
  (hcmp : ∀ x y, compare x y = true ↔ f x ≤ f y) {n s : ℕ} (hs : Shape n s)
include hcmp hs

/-- The climb of `play`: matches above `p` with the same last player are played, and the
winner of the highest of them is left at its parent. -/
theorem playUp_built {A : ℕ → α} {m m' : ℕ} (hm : m < m')
    (hgap : ∀ c, c < n → last n s c < m' → last n s c ≤ m) {fuel p : ℕ} {W B : ℕ → ℕ}
    (h1 : 1 ≤ p) (hpn : p < n) (hlast : last n s p = m') (hfuel : p ≤ fuel)
    (hb : Building n s (fun i => f (A i)) (fun r => last n s r ≤ m ∨ (last n s r = m' ∧ p ≤ r))
      (some p) W B)
    (hroot : last n s 1 ≤ m → B 0 = W 1) :
    ∃ W', Built n s m' (fun i => f (A i)) W' (playUp compare A fuel p (W p) B) := by
  induction fuel generalizing p W B with
  | zero => omega
  | succ fuel ih =>
    by_cases hodd : 1 < p ∧ p % 2 = 1
    · -- a right child: the winner of its left sibling waits at the parent
      have hp : 2 * (p / 2) + 1 = p := by omega
      have hq : p / 2 < n := by omega
      have hlq : last n s (p / 2) = m' := by rw [last_of_lt hq, hp, hlast]
      have hleft : last n s (2 * (p / 2)) ≤ m :=
        hgap _ (by omega) (hlq ▸ last_left_lt hs (by omega) hq)
      have hwait : B (p / 2) = W (2 * (p / 2)) := by
        have hw := hb.waiting (2 * (p / 2)) (by omega) (by omega) (Or.inl hleft) (by omega)
          (by rw [Nat.mul_div_cancel_left _ (by decide), hlq]; omega)
          (by intro hh; have := Option.some.inj hh; omega)
        rwa [Nat.mul_div_cancel_left _ (by decide)] at hw
      have ho := (win_lose_outcome hcmp A (W p) (B (p / 2))).symm
      rw [hwait] at ho
      rw [playUp, if_pos hodd, hwait]
      have hplay := hb.play (q := p / 2)
        (E := fun r => last n s r ≤ m ∨ (last n s r = m' ∧ p / 2 ≤ r)) (by omega) hq
        (by rw [hlq]; omega) (fun c hc => by rw [← Option.some.inj hc]) ?_ ?_ (by rwa [hp])
      · have hup := ih (by omega) hq hlq (by omega) hplay (fun hr => by
          rw [Function.update_of_ne (by omega), Function.update_of_ne (fun he => by rw [he] at hr; omega)]
          exact hroot hr)
        rwa [Function.update_self] at hup
      · intro r hr1 hr
        constructor
        · rintro (hlr | ⟨hlr, hle⟩)
          · exact Or.inl (Or.inl hlr)
          · rcases Nat.lt_or_ge r p with hlt | hge
            · have := right_child_of_rightmost_eq (rightmost_eq_of_last_eq hs (by omega)
                (by omega) (hlr.trans hlast.symm)) hlt
              exact Or.inr (by omega)
            · exact Or.inl (Or.inr ⟨hlr, hge⟩)
        · rintro ((hlr | ⟨hlr, hle⟩) | rfl)
          · exact Or.inl hlr
          · exact Or.inr ⟨hlr, by omega⟩
          · exact Or.inr ⟨hlq, le_rfl⟩
      · rintro r hr1 hr hDr rfl
        have := last_le_parent hs (c := p / 2) (by omega) (by omega)
        omega
    · -- a left child or the root: nothing more to play
      have hD (r : ℕ) (hr1 : 1 ≤ r) (hr : r < n) :
          last n s r ≤ m' ↔ last n s r ≤ m ∨ (last n s r = m' ∧ p ≤ r) := by
        refine ⟨fun hle => ?_, fun hh => by omega⟩
        rcases Nat.eq_or_lt_of_le hle with he | hlt
        · by_contra hc
          have := right_child_of_rightmost_eq (rightmost_eq_of_last_eq hs (by omega)
            (by omega) (he.trans hlast.symm)) (show r < p by omega)
          omega
        · exact Or.inl (hgap r hr hlt)
      have hnot : ¬ (last n s (p / 2) ≤ m ∨ (last n s (p / 2) = m' ∧ p ≤ p / 2)) := by
        rcases Nat.eq_or_lt_of_le h1 with rfl | h2
        · have h0 : last n s 0 = last n s 1 := last_of_lt (by omega)
          rw [show 1 / 2 = 0 by decide, h0]
          omega
        · have := last_le_parent hs h2 (by omega)
          omega
      rw [playUp, if_neg hodd]
      refine ⟨W, (hb.leave (by omega) hnot).congr hD, fun hr => ?_⟩
      rcases Nat.eq_or_lt_of_le h1 with rfl | h2
      · exact Function.update_self _ _ _
      · rw [Function.update_of_ne (by omega)]
        exact hroot (by have := (hD 1 le_rfl (by omega)).mp hr; omega)

/-- A match of the winners below its children, the right child being a leaf. -/
theorem play_built {t : LoserTree α} {m p l r : ℕ} {W : ℕ → ℕ}
    (hb : Built n s m (fun i => f (t.L i)) W t.B) (h1 : 1 ≤ p) (hpn : p < n) (hleaf : n ≤ 2 * p + 1)
    (hm : m < last n s p) (hgap : ∀ c, c < n → last n s c < last n s p → last n s c ≤ m)
    (hl : l = W (2 * p)) (hr : r = W (2 * p + 1)) :
    ∃ W', Built n s (last n s p) (fun i => f (t.L i)) W' (play compare p l r t).B := by
  subst hl hr
  have ho := win_lose_outcome hcmp t.L (W (2 * p)) (W (2 * p + 1))
  have hplay := hb.building.play
    (E := fun r => last n s r ≤ m ∨ (last n s r = last n s p ∧ p ≤ r)) h1 hpn (by omega)
    (fun c hc => by cases hc) ?_ ?_ ho
  · have hup := playUp_built hcmp hs hm hgap h1 hpn rfl le_rfl hplay (fun hh => by
      rw [Function.update_of_ne (by omega), Function.update_of_ne (by rintro rfl; omega)]
      exact hb.root hh)
    rwa [Function.update_self] at hup
  · intro r hr1 hr
    refine ⟨?_, ?_⟩
    · rintro (hlr | ⟨hlr, hle⟩)
      · exact Or.inl hlr
      · rcases Nat.eq_or_lt_of_le hle with he | hlt
        · exact Or.inr he.symm
        · have := right_child_of_rightmost_eq (rightmost_eq_of_last_eq hs (by omega)
            (by omega) hlr.symm) hlt
          omega
    · rintro (hlr | rfl)
      · exact Or.inl hlr
      · exact Or.inr ⟨rfl, le_rfl⟩
  · rintro r hr1 hr hDr rfl
    have := last_le_parent hs (c := p) (by omega) (by omega)
    omega

/-- A match of two neighbouring leaves. -/
theorem play_pair_built {t : LoserTree α} {i p : ℕ} {W : ℕ → ℕ} (h2 : 2 ≤ i) (hi : i ≤ n)
    (hl : leaf n s (i - 1) = 2 * p) (hr : leaf n s i = 2 * p + 1)
    (hb : Built n s (i - 2) (fun i => f (t.L i)) W t.B) :
    ∃ W', Built n s i (fun i => f (t.L i)) W' (play compare p (i - 1) i t).B := by
  have hlb := leaf_bounds hs (show 1 ≤ i - 1 by omega) (by omega)
  have hrb := leaf_bounds hs (show 1 ≤ i by omega) hi
  rw [hl] at hlb
  rw [hr] at hrb
  obtain ⟨hlast, hgap⟩ := last_of_leaves hs h2 hi hl hr
  have hplay := play_built hcmp hs (p := p) (l := i - 1) (r := i) hb (by omega) (by omega)
    hrb.1 (by omega) (by rwa [hlast]) ?_ ?_
  · rwa [hlast] at hplay
  · rw [hb.building.leaves _ hlb.1 hlb.2, ← hl, player_leaf hs (by omega) (by omega)]
  · rw [hb.building.leaves _ hrb.1 hrb.2, ← hr, player_leaf hs (by omega) hi]

/-- `k` matches of neighbouring leaves bring the tree from player `i-2` to `bound`. -/
theorem playFrom_built {parent : ℕ → ℕ} {bound : ℕ} (hbound : bound ≤ n) {k fuel i : ℕ}
    {t : LoserTree α} {W : ℕ → ℕ} (h2 : 2 ≤ i) (hk : i + 2 * k = bound + 2) (hf : k ≤ fuel)
    (hpar : ∀ j, i ≤ j → j ≤ bound → (bound - j) % 2 = 0 →
      leaf n s (j - 1) = 2 * parent j ∧ leaf n s j = 2 * parent j + 1)
    (hb : Built n s (i - 2) (fun i => f (t.L i)) W t.B) :
    (playFrom compare parent bound fuel i t).L = t.L ∧
      ∃ W', Built n s bound (fun i => f (t.L i)) W'
        (playFrom compare parent bound fuel i t).B := by
  induction fuel generalizing k i t W with
  | zero =>
    rw [show i - 2 = bound by omega] at hb
    exact ⟨rfl, W, hb⟩
  | succ fuel ih =>
    by_cases hi : i ≤ bound
    · obtain ⟨hl, hr⟩ := hpar i le_rfl hi (by omega)
      obtain ⟨W', hb'⟩ := play_pair_built hcmp hs h2 (hi.trans hbound) hl hr hb
      rw [playFrom, if_pos hi]
      exact ih (k := k - 1) (t := play compare (parent i) (i - 1) i t) (by omega) (by omega)
        (by omega) (fun j hj => hpar j (by omega)) hb'
    · rw [playFrom, if_neg hi]
      rw [show i - 2 = bound by omega] at hb
      exact ⟨rfl, W, hb⟩

end Initialize

theorem lowestLevel_shape {n : ℕ} (hn : 2 ≤ n) (fuel s : ℕ) (hp : ∃ k, s = 2 ^ k) (hs : s < n)
    (hf : n ≤ fuel + s) : Shape n (lowestLevel n fuel s) := by
  have hpos : 0 < s := by
    obtain ⟨k, rfl⟩ := hp
    exact Nat.two_pow_pos k
  induction fuel generalizing s with
  | zero => omega
  | succ fuel ih =>
    rw [lowestLevel]
    split
    · obtain ⟨k, rfl⟩ := hp
      exact ih _ ⟨k + 1, by ring⟩ (by omega) (by omega) (by omega)
    · exact ⟨hp, hs, by omega⟩

/-- The tree has the measures of a tournament of `n` players. -/
structure Sized (n s : ℕ) (t : LoserTree α) : Prop where
  n_eq : t.n = n
  low : t.lowExt = 2 * (n - s)
  off : t.offset = 2 * s - 1

theorem Sized.play {n s : ℕ} {t : LoserTree α} (h : t.Sized n s) (p left right : ℕ) :
    (LoserTree.play compare p left right t).Sized n s := ⟨h.n_eq, h.low, h.off⟩

theorem Sized.playFrom {n s : ℕ} {t : LoserTree α} (h : t.Sized n s) (parent : ℕ → ℕ)
    (bound fuel i : ℕ) : (LoserTree.playFrom compare parent bound fuel i t).Sized n s := by
  induction fuel generalizing i t with
  | zero => exact h
  | succ fuel ih =>
    rw [LoserTree.playFrom]
    split
    · exact ih (h.play compare _ _ _) _
    · exact h

/-- The tree is a played tournament of the players' current tuples. -/
def Valid {κ : Type} [LinearOrder κ] (f : α → κ) (t : LoserTree α) : Prop :=
  ∃ s W, Shape t.n s ∧ t.lowExt = 2 * (t.n - s) ∧ t.offset = 2 * s - 1 ∧
    Played t.n s (fun i => f (t.L i)) W t.B

section Valid
variable {κ : Type} [LinearOrder κ] {f : α → κ} {t : LoserTree α}

theorem Valid.winner_bounds (h : Valid f t) : 1 ≤ t.winner ∧ t.winner ≤ t.n := by
  obtain ⟨s, W, hs, -, -, hp⟩ := h
  exact hp.winner_bounds hs

/-- `Winner()` holds a least tuple. -/
theorem Valid.winning_le (h : Valid f t) {i : ℕ} (h1 : 1 ≤ i) (hn : i ≤ t.n) :
    f t.winning ≤ f (t.L i) := by
  obtain ⟨s, W, hs, -, -, hp⟩ := h
  exact hp.winner_le hs h1 hn

/-- `B[0..n-1]` names every player once. -/
theorem Valid.losers_perm (h : Valid f t) : ((List.range t.n).map t.B).Perm (List.range' 1 t.n) := by
  obtain ⟨s, W, hs, -, -, hp⟩ := h
  exact hp.losers_perm hs

end Valid

theorem built_zero {κ : Type} [LinearOrder κ] {n s : ℕ} (hs : Shape n s) (key : ℕ → κ)
    (junk : ℕ → ℕ) : Built n s 0 key (player n s) junk := by
  have hlt := hs.lt
  have hpos {r : ℕ} (hr : r < n) : ¬ last n s r ≤ 0 := by
    have := player_bounds hs (rightmost_bounds (show r < 2 * n by omega)).2
    unfold last
    omega
  exact ⟨⟨fun _ _ _ => rfl, fun r _ hr hD => absurd hD (hpos hr),
    fun c _ hc hD => absurd hD (hpos hc)⟩, fun hr => absurd hr (hpos (by have := hs.pos; omega))⟩

/-- A tree that all players have reached is a played tournament. -/
theorem Sized.valid {κ : Type} [LinearOrder κ] {f : α → κ} {t : LoserTree α} {n s : ℕ}
    {W : ℕ → ℕ} (hs : Shape n s) (ht : t.Sized n s)
    (hb : Built n s n (fun i => f (t.L i)) W t.B) : Valid f t := by
  have hlt := hs.lt
  have hle {r : ℕ} (hr : r < n) : last n s r ≤ n :=
    (player_bounds hs (rightmost_bounds (show r < 2 * n by omega)).2).2
  refine ⟨s, W, ?_, ht.n_eq ▸ ht.low, ht.off, ?_⟩ <;> rw [ht.n_eq]
  · exact hs
  · exact ⟨hb.building.leaves, fun p h1 hp => hb.building.played p h1 hp (hle hp),
      hb.root (hle (by have := hs.pos; omega))⟩

section Operations
variable {κ : Type} [LinearOrder κ] {f : α → κ} {compare}
  (hcmp : ∀ x y, compare x y = true ↔ f x ≤ f y)
include hcmp

theorem playLow_built {n s : ℕ} (hs : Shape n s) {t : LoserTree α} (ht : t.Sized n s) {W : ℕ → ℕ}
    (hb : Built n s 0 (fun i => f (t.L i)) W t.B) :
    (playLow compare t).L = t.L ∧
      ∃ W', Built n s (2 * (n - s)) (fun i => f (t.L i)) W' (playLow compare t).B := by
  have h1 := hs.lt
  have h2 := hs.le
  unfold playLow
  rw [ht.n_eq, ht.low, ht.off]
  exact playFrom_built hcmp hs (k := n - s) (by omega) le_rfl (by omega) (by omega)
    (fun j hj => leaves_low hs hj) hb

/-- The last internal node and the first leaf of the upper level meet. -/
theorem play_middle_built {n s : ℕ} (hs : Shape n s) (hodd : n % 2 = 1) {t : LoserTree α}
    {W : ℕ → ℕ} (hb : Built n s (2 * (n - s)) (fun i => f (t.L i)) W t.B) :
    ∃ W', Built n s (2 * (n - s) + 1) (fun i => f (t.L i)) W'
      (play compare (n / 2) (t.B ((n - 1) / 2)) (2 * (n - s) + 1) t).B := by
  have h1 := hs.lt
  have h2 := hs.le
  have hpos := hs.pos
  obtain ⟨hlastn, hlast, hprev⟩ := last_half hs hodd
  have hleft : t.B ((n - 1) / 2) = W (2 * (n / 2)) := by
    rw [show 2 * (n / 2) = n - 1 by omega]
    exact hb.building.waiting (n - 1) (by omega) (by omega) hprev.le (by omega)
      (by rw [show (n - 1) / 2 = n / 2 by omega, hlast]; omega) (by simp)
  have hright : 2 * (n - s) + 1 = W (2 * (n / 2) + 1) := by
    rw [show 2 * (n / 2) + 1 = n by omega, hb.building.leaves _ le_rfl (by omega),
      ← last_of_ge le_rfl, hlastn]
  have hplay := play_built hcmp hs hb (by omega) (by omega) (by omega)
    (by rw [hlast]; omega) (fun c _ hlt => by rw [hlast] at hlt; omega) hleft hright
  rwa [hlast] at hplay

theorem playHigh_built {n s : ℕ} (hs : Shape n s) {t : LoserTree α} (ht : t.Sized n s)
    {W : ℕ → ℕ} (hb : Built n s (2 * (n - s)) (fun i => f (t.L i)) W t.B) :
    (playHigh compare t).L = t.L ∧
      ∃ W', Built n s n (fun i => f (t.L i)) W' (playHigh compare t).B := by
  have h1 := hs.lt
  have h2 := hs.le
  unfold playHigh
  rw [ht.n_eq, ht.low]
  split
  · next hodd =>
    obtain ⟨W', hb'⟩ := play_middle_built hcmp hs hodd hb
    exact playFrom_built hcmp hs (k := (n - 2 * (n - s)) / 2)
      (t := play compare (n / 2) (t.B ((n - 1) / 2)) (2 * (n - s) + 1) t) le_rfl (by omega)
      (by omega) (by omega) (fun j hj => leaves_high hs (by omega)) hb'
  · next heven =>
    exact playFrom_built hcmp hs (k := (n - 2 * (n - s)) / 2) le_rfl (by omega)
      (by omega) (by omega) (fun j hj => leaves_high hs (by omega)) hb

theorem initializeTree_valid (junk : ℕ → ℕ) (A : ℕ → α) {size : ℕ} (hn : 2 ≤ size) :
    Valid f (initializeTree compare junk A size) ∧
      (initializeTree compare junk A size).L = A ∧
      (initializeTree compare junk A size).n = size := by
  have hs := lowestLevel_shape hn size 1 ⟨0, rfl⟩ (by omega) (by omega)
  unfold initializeTree
  generalize lowestLevel size size 1 = s at hs
  let t : LoserTree α := ⟨size, 2 * (size - s), 2 * s - 1, junk, A⟩
  have ht : t.Sized size s := ⟨rfl, rfl, rfl⟩
  obtain ⟨hL, W, hb⟩ := playLow_built hcmp hs ht (built_zero hs (fun i => f (A i)) junk)
  have ht1 : (playLow compare t).Sized size s := ht.playFrom compare _ _ _ _
  rw [← hL] at hb
  obtain ⟨hL', W', hb'⟩ := playHigh_built hcmp hs ht1 hb
  have ht2 : (playHigh compare (playLow compare t)).Sized size s := by
    unfold playHigh
    dsimp only
    split
    · exact (ht1.play compare _ _ _).playFrom compare _ _ _ _
    · exact ht1.playFrom compare _ _ _ _
  rw [← hL'] at hb'
  exact ⟨ht2.valid hs hb', hL'.trans hL, ht2.n_eq⟩

theorem replayUp_played {n s : ℕ} {A : ℕ → α} {fuel p : ℕ} {W B : ℕ → ℕ} (h1 : 1 ≤ p)
    (hn : p < n) (hf : p ≤ fuel) (hc : Climbing n s (fun i => f (A i)) p W B) (hw : B 0 = W p) :
    ∃ W', Played n s (fun i => f (A i)) W' (replayUp compare A fuel p B) := by
  induction fuel generalizing p W B with
  | zero => omega
  | succ fuel ih =>
    rw [replayUp]
    split
    · next hq =>
      have ho := (win_lose_outcome hcmp A (B (p / 2)) (B 0)).symm
      rw [hw] at ho
      have hstep := hc.step (by omega) (by omega) ho
        (C := Function.update (Function.update B (p / 2) (lose compare A (B (p / 2)) (W p))) 0
          (win compare A (B (p / 2)) (W p)))
        (by rw [Function.update_of_ne (by omega), Function.update_self])
        (fun r hr hne => by rw [Function.update_of_ne (by omega), Function.update_of_ne hne])
      rw [hw]
      exact ih hq (by omega) (by omega) hstep (by simp)
    · next hq =>
      obtain rfl : p = 1 := by omega
      exact ⟨W, hc.root hw⟩

/-- Replaying the winner restores the tournament, whatever its new tuple is. -/
theorem replay_valid {f' : α → κ} {t : LoserTree α} (h : Valid f' t) (x : α)
    (hf : ∀ j, 1 ≤ j → j ≤ t.n → j ≠ t.winner → f (t.L j) = f' (t.L j)) :
    Valid f (replay compare t.winner (load t.winner x t)) := by
  obtain ⟨s, W, hs, hlow, hoff, hp⟩ := h
  have h1 := hs.lt
  have h2 := hs.le
  have hbd : 1 ≤ t.winner ∧ t.winner ≤ t.n := hp.winner_bounds hs
  have hlf := leaf_bounds hs hbd.1 hbd.2
  let A := Function.update t.L t.winner x
  have hc : Climbing t.n s (fun i => f (A i)) (leaf t.n s t.winner) W t.B := by
    apply hp.climbing hs
    intro j hj1 hjn hne
    rw [← hf j hj1 hjn hne]
    exact congrArg f (Function.update_of_ne hne _ _)
  have hpar : (if t.winner ≤ t.lowExt then (t.winner + t.offset) / 2
      else (t.winner - t.lowExt + t.n - 1) / 2) = leaf t.n s t.winner / 2 := by
    rw [hlow, hoff, leaf]
    split
    · rfl
    · congr 1
      omega
  have ho := win_lose_outcome hcmp A t.winner (t.B (leaf t.n s t.winner / 2))
  have hW : W (leaf t.n s t.winner) = t.winner := by
    rw [hp.leaves _ hlf.1 hlf.2, player_leaf hs hbd.1 hbd.2]
  have hB0 (w : ℕ) : Function.update t.B 0 w (leaf t.n s t.winner / 2) =
      t.B (leaf t.n s t.winner / 2) := Function.update_of_ne (by omega) _ _
  have hstep := hc.step (by omega) hlf.2 (by rw [hW]; exact ho)
    (C := Function.update
      (Function.update t.B 0 (win compare A t.winner (t.B (leaf t.n s t.winner / 2))))
      (leaf t.n s t.winner / 2) (lose compare A t.winner (t.B (leaf t.n s t.winner / 2))))
    (Function.update_self _ _ _)
    (fun r hr hne => by rw [Function.update_of_ne hne, Function.update_of_ne (by omega)])
  obtain ⟨W', hplayed⟩ := replayUp_played hcmp (by omega) (by omega) le_rfl hstep (by
    rw [Function.update_of_ne (by omega), Function.update_self, Function.update_self])
  refine ⟨s, W', hs, hlow, hoff, ?_⟩
  change Played t.n s (fun i => f (A i)) W' (replay compare t.winner (load t.winner x t)).B
  unfold replay load
  dsimp only
  rw [hpar, hB0]
  exact hplayed

/-- Merge steps keep the tournament. -/
theorem advances_valid {t : LoserTree α} (h : Valid f t) (news : List α) :
    Valid f (news.foldl (advance compare) t) ∧ (news.foldl (advance compare) t).n = t.n := by
  induction news generalizing t with
  | nil => exact ⟨h, rfl⟩
  | cons x news ih => exact ih (replay_valid hcmp h x fun _ _ _ _ => rfl)

end Operations

end LoserTree
end Mosito
