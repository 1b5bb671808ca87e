import Mosito.Common.LoserTree

/-! The accesses of the loser tree. The operations are run again with an array `B` whose entries
are written or not. There is no result once an index leaves its array, an entry is read before it
is written, or an `int` leaves its range. -/
namespace Mosito
open Tournament

/-- `none` in `B` is an entry that was not written. -/
structure AccessTree (α : Type) where
  n : ℕ
  lowExt : ℕ
  offset : ℕ
  B : ℕ → Option ℕ
  L : ℕ → α

/-- The value of an `int` expression. -/
def int (x : ℕ) : Option ℕ := if x < 2 ^ 31 then some x else none

namespace AccessTree
variable {α : Type} (compare : α → α → Bool)

/-- `B[p]`. -/
def readB (p : ℕ) (t : AccessTree α) : Option ℕ := if p < t.n then t.B p else none

def writeB (p v : ℕ) (t : AccessTree α) : Option (AccessTree α) :=
  if p < t.n then some { t with B := Function.update t.B p (some v) } else none

/-- `L[i]`. -/
def readL (i : ℕ) (t : AccessTree α) : Option α := if 1 ≤ i ∧ i ≤ t.n then some (t.L i) else none

def writeL (i : ℕ) (x : α) (t : AccessTree α) : Option (AccessTree α) :=
  if 1 ≤ i ∧ i ≤ t.n then some { t with L := Function.update t.L i x } else none

def win (left right : ℕ) (t : AccessTree α) : Option ℕ := do
  if compare (← t.readL left) (← t.readL right) then some left else some right

def lose (left right : ℕ) (t : AccessTree α) : Option ℕ := do
  if !compare (← t.readL left) (← t.readL right) then some left else some right

/-- `while(p>1 && p%2)` of `play` and the write behind it. -/
def playUp : ℕ → ℕ → ℕ → AccessTree α → Option (AccessTree α)
  | 0, _, _, _ => none
  | fuel + 1, p, temp1, t =>
      if 1 < p ∧ p % 2 = 1 then do
        let temp2 ← t.win compare temp1 (← t.readB (p / 2))
        let t ← t.writeB (p / 2) (← t.lose compare temp1 (← t.readB (p / 2)))
        playUp fuel (p / 2) temp2 t
      else t.writeB (p / 2) temp1

def play (p left right : ℕ) (t : AccessTree α) : Option (AccessTree α) := do
  let t ← t.writeB p (← t.lose compare left right)
  playUp compare (p + 1) p (← t.win compare left right) t

/-- `for(s=1;2*s<=n-1;s+=s)`. -/
def lowestLevel (n : ℕ) : ℕ → ℕ → Option ℕ
  | 0, _ => none
  | fuel + 1, s => do if (← int (2 * s)) ≤ n - 1 then lowestLevel n fuel (s + s) else some s

/-- `for(;i<=bound;i+=2) play(parent(i),i-1,i)`. -/
def playFrom (parent : ℕ → Option ℕ) (bound : ℕ) :
    ℕ → ℕ → AccessTree α → Option (AccessTree α)
  | 0, _, _ => none
  | fuel + 1, i, t =>
      if i ≤ bound then do
        let t ← play compare (← parent i) (i - 1) i t
        playFrom parent bound fuel (← int (i + 2)) t
      else some t

/-- `(i+offset)/2`. -/
def lowParent (t : AccessTree α) (i : ℕ) : Option ℕ := (int (i + t.offset)).map (· / 2)

/-- `(i-lowExt+n-1)/2`. -/
def highParent (t : AccessTree α) (i : ℕ) : Option ℕ :=
  (int (i - t.lowExt + t.n)).map fun x => (x - 1) / 2

/-- The parent of the leaf of player `i`. -/
def parent (t : AccessTree α) (i : ℕ) : Option ℕ :=
  if i ≤ t.lowExt then t.lowParent i else t.highParent i

def playLow (t : AccessTree α) : Option (AccessTree α) :=
  playFrom compare t.lowParent t.lowExt (t.n + 1) 2 t

def playHigh (t : AccessTree α) : Option (AccessTree α) :=
  if t.n % 2 = 1 then do
    let t' ← play compare (t.n / 2) (← t.readB ((t.n - 1) / 2)) (← int (t.lowExt + 1)) t
    playFrom compare t.highParent t.n (t.n + 1) (← int (t.lowExt + 3)) t'
  else do playFrom compare t.highParent t.n (t.n + 1) (← int (t.lowExt + 2)) t

/-- `initialize`, which prints `B[0]` at its end. -/
def initializeTree (A : ℕ → α) (size : ℕ) : Option (AccessTree α) := do
  let s ← lowestLevel size (size + 1) 1
  let t ← playLow compare
    ⟨size, ← int (2 * (size - s)), (← int (2 * s)) - 1, fun _ => none, A⟩
  let t ← playHigh compare t
  let _ ← t.readB 0
  some t

/-- `for(;(p/2)>=1;p/=2)` of `replay`. -/
def replayUp : ℕ → ℕ → AccessTree α → Option (AccessTree α)
  | 0, _, _ => none
  | fuel + 1, p, t =>
      if 1 ≤ p / 2 then do
        let temp ← t.win compare (← t.readB (p / 2)) (← t.readB 0)
        let t ← t.writeB (p / 2) (← t.lose compare (← t.readB (p / 2)) (← t.readB 0))
        replayUp fuel (p / 2) (← t.writeB 0 temp)
      else some t

/-- `replay`, which tests `L[B[0]]` at its end. -/
def replay (i : ℕ) (t : AccessTree α) : Option (AccessTree α) := do
  let p ← t.parent i
  let t ← t.writeB 0 (← t.win compare i (← t.readB p))
  let t ← t.writeB p (← t.lose compare i (← t.readB p))
  let t ← replayUp compare (p + 1) p t
  let _ ← t.readL (← t.readB 0)
  some t

/-- `Winner()`. -/
def winner (t : AccessTree α) : Option ℕ := t.readB 0

/-- `Load(Winner(), newOne); replay(Winner())`. -/
def advance (t : AccessTree α) (newOne : α) : Option (AccessTree α) := do
  let t ← t.writeL (← t.winner) newOne
  t.replay compare (← t.winner)

/-- The tree after `initialize` and the merge steps. -/
def run (A : ℕ → α) (size : ℕ) (news : List α) : Option (AccessTree α) := do
  let t ← initializeTree compare A size
  news.foldlM (advance compare) t

variable {compare} {n s m p fuel left right temp1 i bound : ℕ} {t t' t'' : AccessTree α}

/-- A player's number. -/
def Player (t : AccessTree α) (i : ℕ) : Prop := 1 ≤ i ∧ i ≤ t.n

/-- Entry `p` was written, with a player. -/
def Written (t : AccessTree α) (p : ℕ) : Prop := ∃ v, t.B p = some v ∧ t.Player v

/-- Only entries of `B` are written, with players. -/
structure Grows (t t' : AccessTree α) : Prop where
  n_eq : t'.n = t.n
  low : t'.lowExt = t.lowExt
  off : t'.offset = t.offset
  keys : t'.L = t.L
  written : ∀ p, t.Written p → t'.Written p

theorem Grows.refl (t : AccessTree α) : Grows t t := ⟨rfl, rfl, rfl, rfl, fun _ => id⟩

theorem Grows.trans (h : Grows t t') (h' : Grows t' t'') : Grows t t'' :=
  ⟨h'.n_eq.trans h.n_eq, h'.low.trans h.low, h'.off.trans h.off, h'.keys.trans h.keys,
    fun p hp => h'.written p (h.written p hp)⟩

theorem Grows.player (h : Grows t t') (hi : t.Player i) : t'.Player i := by
  rw [Player, h.n_eq]
  exact hi

theorem Written.read (h : t.Written p) (hp : p < t.n) : ∃ v, t.readB p = some v ∧ t.Player v := by
  obtain ⟨v, hv, hplayer⟩ := h
  exact ⟨v, by rw [readB, if_pos hp, hv], hplayer⟩

theorem writeB_grows {v : ℕ} (hp : p < t.n) (hv : t.Player v) :
    ∃ t', t.writeB p v = some t' ∧ Grows t t' ∧ t'.Written p := by
  refine ⟨_, if_pos hp, ⟨rfl, rfl, rfl, rfl, fun q hq => ?_⟩, v, Function.update_self _ _ _, hv⟩
  rcases eq_or_ne q p with rfl | hqp
  · exact ⟨v, Function.update_self _ _ _, hv⟩
  · obtain ⟨w, hw, hplayer⟩ := hq
    exact ⟨w, by dsimp only; rw [Function.update_of_ne hqp, hw], hplayer⟩

/-- A match of two players has a winner and a loser. -/
theorem match_player (compare : α → α → Bool) (hl : t.Player left) (hr : t.Player right) :
    (∃ w, t.win compare left right = some w ∧ t.Player w) ∧
      ∃ w, t.lose compare left right = some w ∧ t.Player w := by
  have hreadl : t.readL left = some (t.L left) := if_pos hl
  have hreadr : t.readL right = some (t.L right) := if_pos hr
  unfold win lose
  rw [hreadl, hreadr]
  cases hcmp : compare (t.L left) (t.L right)
  · exact ⟨⟨right, by simp [hcmp], hr⟩, left, by simp [hcmp], hl⟩
  · exact ⟨⟨left, by simp [hcmp], hl⟩, right, by simp [hcmp], hr⟩

/-- Where the last player below a match is among the first `m`, the match was played and has left
its winner. -/
def Done (n s m : ℕ) (t : AccessTree α) : Prop :=
  ∀ c, 1 ≤ c → c < n → last n s c ≤ m → t.Written c ∧ t.Written (c / 2)

/-- The climb of `play` reads what the left siblings have left, and writes the parents. -/
theorem playUp_done (compare : α → α → Bool) (hs : Shape n s) {m' : ℕ}
    (hgap : ∀ c < n, last n s c < m' → last n s c ≤ m) (hn : t.n = n) (h1 : 1 ≤ p) (hpn : p < n)
    (hlast : last n s p = m') (hfuel : p < fuel) (htemp : t.Player temp1) (hp : t.Written p)
    (hdone : ∀ c, 1 ≤ c → c < n → last n s c ≤ m ∨ (last n s c = m' ∧ p < c) →
      t.Written c ∧ t.Written (c / 2)) :
    ∃ t', playUp compare fuel p temp1 t = some t' ∧ Grows t t' ∧ Done n s m' t' := by
  induction fuel generalizing p temp1 t with
  | zero => omega
  | succ fuel ih =>
    -- a match with the same last player is above `p` by right children
    have habove {c : ℕ} (hc : c < n) (he : last n s c = m') (hlt : c < p) :
        p % 2 = 1 ∧ c ≤ p / 2 := by
      have hr := rightmost_eq_of_last_eq hs (by omega) (by omega) (he.trans hlast.symm)
      exact right_child_of_rightmost_eq hr hlt
    have hdown {c : ℕ} (hc : c < n) (hle : last n s c ≤ m') : last n s c ≤ m ∨ last n s c = m' := by
      rcases Nat.lt_or_eq_of_le hle with hlt | he
      · exact Or.inl (hgap c hc hlt)
      · exact Or.inr he
    -- the write at `p / 2` was the only one that was missing at `p` and above it
    have hmore {t₁ : AccessTree α} (hgrows : Grows t t₁) (hwritten : t₁.Written (p / 2)) {c : ℕ}
        (hc1 : 1 ≤ c) (hc : c < n) (hor : last n s c ≤ m ∨ last n s c = m' ∧ ¬ c < p) :
        t₁.Written c ∧ t₁.Written (c / 2) := by
      rcases eq_or_ne c p with rfl | hcp
      · exact ⟨hgrows.written _ hp, hwritten⟩
      · have hboth := hdone c hc1 hc (hor.imp_right fun h => ⟨h.1, by omega⟩)
        exact ⟨hgrows.written _ hboth.1, hgrows.written _ hboth.2⟩
    rw [playUp]
    by_cases hodd : 1 < p ∧ p % 2 = 1
    · have hq : p / 2 < n := by omega
      have hlq : last n s (p / 2) = m' := by
        rw [last_of_lt hq, show 2 * (p / 2) + 1 = p by omega, hlast]
      have hleft : last n s (2 * (p / 2)) ≤ m :=
        hgap _ (by omega) (hlq ▸ last_left_lt hs (by omega) hq)
      have hwait := (hdone (2 * (p / 2)) (by omega) (by omega) (Or.inl hleft)).2
      rw [Nat.mul_div_cancel_left _ (by decide)] at hwait
      obtain ⟨other, hread, hother⟩ := hwait.read (by omega)
      obtain ⟨⟨temp2, hwin, htemp2⟩, loser, hlose, hloser⟩ := match_player compare htemp hother
      obtain ⟨t₁, hwrite, hgrows, hwritten⟩ := writeB_grows (p := p / 2) (by omega) hloser
      obtain ⟨t', hup, hgrows', hdone'⟩ := ih (t := t₁) (hgrows.n_eq.trans hn) (by omega) hq hlq
        (by omega) (hgrows.player htemp2) hwritten fun c hc1 hc hor => by
          apply hmore hgrows hwritten hc1 hc
          rcases hor with hle | ⟨he, hlt⟩
          · exact Or.inl hle
          · refine Or.inr ⟨he, fun hcp => ?_⟩
            have := habove hc he hcp
            omega
      refine ⟨t', ?_, hgrows.trans hgrows', hdone'⟩
      rw [if_pos hodd, hread]
      simp only [Option.bind_eq_bind, Option.bind_some, hwin, hlose, hwrite, hup]
    · obtain ⟨t', hwrite, hgrows, hwritten⟩ := writeB_grows (p := p / 2) (by omega) htemp
      refine ⟨t', by rw [if_neg hodd, hwrite], hgrows, fun c hc1 hc hle => ?_⟩
      apply hmore hgrows hwritten hc1 hc
      rcases hdown hc hle with hle | he
      · exact Or.inl hle
      · refine Or.inr ⟨he, fun hcp => ?_⟩
        have := habove hc he hcp
        omega

/-- A match whose right child is a leaf. -/
theorem play_done (compare : α → α → Bool) (hs : Shape n s) (hn : t.n = n) (hd : Done n s m t)
    (h1 : 1 ≤ p) (hpn : p < n) (hleaf : n ≤ 2 * p + 1)
    (hgap : ∀ c < n, last n s c < last n s p → last n s c ≤ m) (hl : t.Player left)
    (hr : t.Player right) :
    ∃ t', play compare p left right t = some t' ∧ Grows t t' ∧ Done n s (last n s p) t' := by
  obtain ⟨⟨temp1, hwin, htemp⟩, loser, hlose, hloser⟩ := match_player compare hl hr
  obtain ⟨t₁, hwrite, hgrows, hwritten⟩ := writeB_grows (p := p) (by omega) hloser
  have hwin' : t₁.win compare left right = some temp1 := by
    rw [← hwin]
    simp only [win, readL, hgrows.keys, hgrows.n_eq]
  obtain ⟨t', hup, hgrows', hdone⟩ := playUp_done compare hs hgap (hgrows.n_eq.trans hn) h1 hpn
    rfl (Nat.lt_succ_self p) (hgrows.player htemp) hwritten fun c hc1 hc hor => by
      rcases hor with hle | ⟨he, hlt⟩
      · exact ⟨hgrows.written _ (hd c hc1 hc hle).1, hgrows.written _ (hd c hc1 hc hle).2⟩
      · have hrm := rightmost_eq_of_last_eq hs (by omega) (by omega) he.symm
        have := right_child_of_rightmost_eq hrm hlt
        omega
  refine ⟨t', ?_, hgrows.trans hgrows', hdone⟩
  rw [play, hlose]
  simp only [Option.bind_eq_bind, Option.bind_some, hwrite, hwin', hup]

theorem int_eq (h : i < 2 ^ 31) : int i = some i := if_pos h

theorem eq_of_int (h : int i = some p) : i = p := by
  unfold int at h
  split_ifs at h
  exact Option.some.inj h

/-- Matches of neighbouring leaves, from player `i-2` to `bound`. -/
theorem playFrom_done (compare : α → α → Bool) (hs : Shape n s) {parent : ℕ → Option ℕ}
    (hbound : bound ≤ n) (hint : n + 2 < 2 ^ 31) (hn : t.n = n) (h2 : 2 ≤ i) (hi : i ≤ bound + 2)
    (heven : (bound + 2 - i) % 2 = 0) (hfuel : bound + 2 < i + fuel + fuel)
    (hpar : ∀ j, i ≤ j → j ≤ bound → (bound - j) % 2 = 0 →
      ∃ q, parent j = some q ∧ leaf n s (j - 1) = 2 * q ∧ leaf n s j = 2 * q + 1)
    (hd : Done n s (i - 2) t) :
    ∃ t', playFrom compare parent bound fuel i t = some t' ∧ Grows t t' ∧ Done n s bound t' := by
  induction fuel generalizing i t with
  | zero => omega
  | succ fuel ih =>
    rw [playFrom]
    by_cases hle : i ≤ bound
    · obtain ⟨q, hq, hl, hr⟩ := hpar i le_rfl hle (by omega)
      obtain ⟨hlast, hgap⟩ := last_of_leaves hs h2 (by omega) hl hr
      have hb := leaf_bounds hs (show 1 ≤ i by omega) (by omega)
      obtain ⟨t₁, hplay, hgrows, hdone⟩ := play_done compare hs hn hd (p := q) (by omega)
        (by omega) (by omega) (by rwa [hlast]) (show t.Player (i - 1) from ⟨by omega, by omega⟩)
        (show t.Player i from ⟨by omega, by omega⟩)
      rw [hlast] at hdone
      obtain ⟨t', hrest, hgrows', hdone'⟩ := ih (i := i + 2) (hgrows.n_eq.trans hn) (by omega)
        (by omega) (by omega) (by omega) (fun j hj => hpar j (by omega)) hdone
      refine ⟨t', ?_, hgrows.trans hgrows', hdone'⟩
      rw [if_pos hle, hq, int_eq (show i + 2 < 2 ^ 31 by omega)]
      simp only [Option.bind_eq_bind, Option.bind_some, hplay, hrest]
    · obtain rfl : i = bound + 2 := by omega
      exact ⟨t, by rw [if_neg hle], .refl t, hd⟩

theorem lowestLevel_some (hn : 2 ≤ n) (hmax : n ≤ 2 ^ 30) (hp : ∃ k, s = 2 ^ k) (hs : s < n)
    (hf : n < fuel + s) : ∃ s', lowestLevel n fuel s = some s' ∧ Shape n s' := by
  induction fuel generalizing s with
  | zero => omega
  | succ fuel ih =>
    obtain ⟨k, rfl⟩ := hp
    have hpos := Nat.two_pow_pos k
    rw [lowestLevel, int_eq (show 2 * 2 ^ k < 2 ^ 31 by omega)]
    simp only [Option.bind_eq_bind, Option.bind_some]
    split_ifs with hle
    · exact ih ⟨k + 1, by ring⟩ (by omega) (by omega)
    · exact ⟨2 ^ k, rfl, ⟨k, rfl⟩, hs, by omega⟩

/-- For more players, the doubling reaches `2^30`, and the next test overflows. -/
theorem lowestLevel_none (hmax : 2 ^ 30 < n) {k : ℕ} (hk : k ≤ 30) :
    lowestLevel n fuel (2 ^ k) = none := by
  induction fuel generalizing k with
  | zero => rfl
  | succ fuel ih =>
    rw [lowestLevel]
    rcases Nat.lt_or_eq_of_le hk with hlt | rfl
    · have hpow : 2 * 2 ^ k ≤ 2 ^ 30 := by
        rw [← pow_succ']
        exact Nat.pow_le_pow_right (by decide) hlt
      rw [int_eq (by omega)]
      simp only [Option.bind_eq_bind, Option.bind_some]
      rw [if_pos (by omega), ← two_mul, ← pow_succ']
      exact ih hlt
    · rfl

/-- The tree of a finished `initialize`: every entry is written. -/
structure Full (s : ℕ) (t : AccessTree α) : Prop where
  shape : Shape t.n s
  low : t.lowExt = 2 * (t.n - s)
  off : t.offset = 2 * s - 1
  written : ∀ p < t.n, t.Written p

theorem Full.grows (h : Full s t) (hg : Grows t t') : Full s t' := by
  refine ⟨hg.n_eq ▸ h.shape, ?_, hg.off.trans h.off, fun p hp => ?_⟩
  · rw [hg.low, hg.n_eq, h.low]
  · exact hg.written p (h.written p (hg.n_eq ▸ hp))

theorem Full.parent (h : Full s t) (hmax : t.n ≤ 2 ^ 30) (hi : t.Player i) :
    ∃ p, t.parent i = some p ∧ 1 ≤ p ∧ p < t.n := by
  have h1 := h.shape.lt
  have h2 := h.shape.le
  obtain ⟨hi1, hin⟩ := hi
  rw [AccessTree.parent, lowParent, highParent, h.low, h.off]
  split_ifs with hle
  · exact ⟨(i + (2 * s - 1)) / 2, by rw [int_eq (by omega)]; rfl, by omega, by omega⟩
  · refine ⟨(i - 2 * (t.n - s) + t.n - 1) / 2, ?_, by omega, by omega⟩
    rw [int_eq (by omega)]
    rfl

theorem playLow_done (compare : α → α → Bool) (hs : Shape n s) (hmax : n ≤ 2 ^ 30) (hn : t.n = n)
    (hlow : t.lowExt = 2 * (n - s)) (hoff : t.offset = 2 * s - 1) :
    ∃ t', playLow compare t = some t' ∧ Grows t t' ∧ Done n s (2 * (n - s)) t' := by
  have h1 := hs.lt
  have h2 := hs.le
  have hpar (j : ℕ) (hj : 2 ≤ j) (hle : j ≤ 2 * (n - s)) (heven : (2 * (n - s) - j) % 2 = 0) :
      ∃ q, t.lowParent j = some q ∧ leaf n s (j - 1) = 2 * q ∧ leaf n s j = 2 * q + 1 := by
    refine ⟨(j + (2 * s - 1)) / 2, ?_, leaves_low hs hj hle heven⟩
    rw [lowParent, hoff, int_eq (by omega)]
    rfl
  have hnone : Done n s 0 t := by
    intro c hc1 hc hle
    have := (player_bounds hs (rightmost_bounds (show c < 2 * n by omega)).2).1
    unfold last at hle
    omega
  unfold playLow
  rw [hlow, hn]
  exact playFrom_done compare hs (by omega) (by omega) hn le_rfl (by omega) (by omega) (by omega)
    hpar hnone

theorem playHigh_done (compare : α → α → Bool) (hs : Shape n s) (hmax : n ≤ 2 ^ 30) (hn : t.n = n)
    (hlow : t.lowExt = 2 * (n - s)) (hd : Done n s (2 * (n - s)) t) :
    ∃ t', playHigh compare t = some t' ∧ Grows t t' ∧ Done n s n t' := by
  have h1 := hs.lt
  have h2 := hs.le
  have hpar (j : ℕ) (hj : 2 * (n - s) + 2 ≤ j) (hle : j ≤ n) (heven : (n - j) % 2 = 0) :
      ∃ q, t.highParent j = some q ∧ leaf n s (j - 1) = 2 * q ∧ leaf n s j = 2 * q + 1 := by
    refine ⟨(j - 2 * (n - s) + n - 1) / 2, ?_, leaves_high hs hj hle heven⟩
    rw [highParent, hlow, hn, int_eq (by omega)]
    rfl
  unfold playHigh
  rw [hlow, hn]
  split_ifs with hodd
  · -- the left operand of the middle match waits at the parent of node `n-1`
    obtain ⟨-, hlast, hprev⟩ := last_half hs hodd
    have hwait := (hd (n - 1) (by omega) (by omega) hprev.le).2
    rw [show (n - 1) / 2 = n / 2 by omega] at hwait
    obtain ⟨other, hread, hother⟩ := hwait.read (by omega)
    obtain ⟨t₁, hplay, hgrows, hdone⟩ := play_done compare hs hn hd (p := n / 2) (by omega)
      (by omega) (by omega) (fun c _ hlt => by omega) hother
      (show t.Player (2 * (n - s) + 1) from ⟨by omega, by omega⟩)
    rw [hlast] at hdone
    obtain ⟨t', hrest, hgrows', hdone'⟩ := playFrom_done compare hs (i := 2 * (n - s) + 3)
      le_rfl (by omega) (hgrows.n_eq.trans hn) (by omega) (by omega) (by omega)
      (show n + 2 < _ + (n + 1) + (n + 1) by omega) (fun j hj => hpar j (by omega)) hdone
    refine ⟨t', ?_, hgrows.trans hgrows', hdone'⟩
    rw [show (n - 1) / 2 = n / 2 by omega, hread, int_eq (by omega), int_eq (by omega)]
    simp only [Option.bind_eq_bind, Option.bind_some, hplay, hrest]
  · obtain ⟨t', hrest, hgrows, hdone⟩ := playFrom_done compare hs (i := 2 * (n - s) + 2)
      le_rfl (by omega) hn (by omega) (by omega) (by omega)
      (show n + 2 < _ + (n + 1) + (n + 1) by omega) hpar hd
    refine ⟨t', ?_, hgrows, hdone⟩
    rw [int_eq (by omega)]
    exact hrest

theorem initializeTree_full (compare : α → α → Bool) (A : ℕ → α) (hn : 2 ≤ n) (hmax : n ≤ 2 ^ 30) :
    ∃ t s, initializeTree compare A n = some t ∧ Full s t ∧ t.n = n ∧ t.L = A := by
  obtain ⟨s, hlevel, hs⟩ := lowestLevel_some (s := 1) hn hmax ⟨0, rfl⟩
    (by omega) (show n < n + 1 + 1 by omega)
  have h1 := hs.lt
  have h2 := hs.le
  obtain ⟨t₁, hlow, hgrows, hdone⟩ := playLow_done compare hs hmax
    (t := ⟨n, 2 * (n - s), 2 * s - 1, fun _ => none, A⟩) rfl rfl rfl
  obtain ⟨t, hhigh, hgrows', hdone'⟩ := playHigh_done compare hs hmax hgrows.n_eq hgrows.low hdone
  have hall := hgrows.trans hgrows'
  have hwritten : ∀ p < n, t.Written p := by
    intro p hp
    have hc (c : ℕ) (h1 : 1 ≤ c) (hc : c < n) := hdone' c h1 hc
      (player_bounds hs (rightmost_bounds (show c < 2 * n by omega)).2).2
    rcases Nat.eq_zero_or_pos p with rfl | hpos
    · exact (hc 1 le_rfl (by omega)).2
    · exact (hc p hpos hp).1
  obtain ⟨w, hread, -⟩ := (hwritten 0 (by omega)).read (by rw [hall.n_eq]; dsimp only; omega)
  refine ⟨t, s, ?_, ⟨hall.n_eq.symm ▸ hs, ?_, hall.off, hall.n_eq.symm ▸ hwritten⟩, hall.n_eq,
    hall.keys⟩
  · rw [initializeTree, hlevel]
    simp only [Option.bind_eq_bind, Option.bind_some, int_eq (show 2 * (n - s) < 2 ^ 31 by omega),
      int_eq (show 2 * s < 2 ^ 31 by omega), hlow, hhigh, hread]
  · rw [hall.low, hall.n_eq]

/-- The climb of `replay`. -/
theorem replayUp_grows (compare : α → α → Bool) (h : ∀ q < t.n, t.Written q) (hp : p < t.n)
    (hfuel : p < fuel) : ∃ t', replayUp compare fuel p t = some t' ∧ Grows t t' := by
  induction fuel generalizing p t with
  | zero => omega
  | succ fuel ih =>
    rw [replayUp]
    split_ifs with hq
    · obtain ⟨other, hother, hplayer⟩ := (h (p / 2) (by omega)).read (by omega)
      obtain ⟨w, hw, hwp⟩ := (h 0 (by omega)).read (by omega)
      obtain ⟨⟨temp, hwin, htemp⟩, loser, hlose, hloser⟩ := match_player compare hplayer hwp
      obtain ⟨t₁, hwrite, hgrows, -⟩ := writeB_grows (p := p / 2) (by omega) hloser
      obtain ⟨t₂, hwrite', hgrows', -⟩ := writeB_grows (t := t₁) (p := 0)
        (by rw [hgrows.n_eq]; omega) (hgrows.player htemp)
      have hall := hgrows.trans hgrows'
      obtain ⟨t', hup, hgrows''⟩ := ih (t := t₂) (p := p / 2)
        (fun q hq => hall.written q (h q (hall.n_eq ▸ hq))) (by rw [hall.n_eq]; omega) (by omega)
      refine ⟨t', ?_, hall.trans hgrows''⟩
      rw [hother, hw]
      simp only [Option.bind_eq_bind, Option.bind_some, hwin, hlose, hwrite, hwrite', hup]
    · exact ⟨t, rfl, .refl t⟩

theorem replay_grows (compare : α → α → Bool) (h : Full s t) (hmax : t.n ≤ 2 ^ 30)
    (hi : t.Player i) : ∃ t', replay compare i t = some t' ∧ Grows t t' := by
  obtain ⟨p, hpar, hp1, hp⟩ := h.parent hmax hi
  obtain ⟨other, hother, hplayer⟩ := (h.written p hp).read hp
  obtain ⟨⟨w, hwin, hw⟩, -⟩ := match_player compare hi hplayer
  obtain ⟨t₁, hwrite, hgrows, -⟩ := writeB_grows (p := 0) (by omega) hw
  have hother' : t₁.readB p = some other := by
    rw [writeB, if_pos (by omega), Option.some.injEq] at hwrite
    rw [← hwrite, readB, if_pos hp]
    dsimp only
    rw [Function.update_of_ne (by omega)]
    rwa [readB, if_pos hp] at hother
  obtain ⟨-, loser, hlose, hloser⟩ := match_player compare (hgrows.player hi) (hgrows.player hplayer)
  obtain ⟨t₂, hwrite', hgrows', -⟩ := writeB_grows (t := t₁) (p := p) (hgrows.n_eq ▸ hp) hloser
  have h₂ := h.grows (hgrows.trans hgrows')
  have hp₂ : p < t₂.n := by rwa [(hgrows.trans hgrows').n_eq]
  obtain ⟨t', hup, hgrows''⟩ := replayUp_grows compare h₂.written hp₂ (Nat.lt_succ_self p)
  have hall := (hgrows.trans hgrows').trans hgrows''
  obtain ⟨w', hw', hplayer'⟩ := ((h.grows hall).written 0 (by rw [hall.n_eq]; omega)).read
    (by rw [hall.n_eq]; omega)
  have hkey : t'.readL w' = some (t'.L w') := if_pos hplayer'
  refine ⟨t', ?_, hall⟩
  rw [replay, hpar]
  simp only [Option.bind_eq_bind, Option.bind_some, hother, hwin, hwrite, hother', hlose, hwrite',
    hup, hw', hkey]

/-- A merge step. -/
theorem advance_full (compare : α → α → Bool) (h : Full s t) (hmax : t.n ≤ 2 ^ 30) (x : α) :
    ∃ t', advance compare t x = some t' ∧ Full s t' ∧ t'.n = t.n := by
  have hpos := h.shape.lt
  obtain ⟨w, hw, hplayer⟩ := (h.written 0 (by omega)).read (by omega)
  let t₁ : AccessTree α := { t with L := Function.update t.L w x }
  have hload : t.writeL w x = some t₁ := if_pos hplayer
  have hw₁ : t₁.readB 0 = some w := hw
  obtain ⟨t', hreplay, hgrows⟩ := replay_grows compare (t := t₁)
    ⟨h.shape, h.low, h.off, h.written⟩ hmax hplayer
  refine ⟨t', ?_, Full.grows (t := t₁) ⟨h.shape, h.low, h.off, h.written⟩ hgrows, hgrows.n_eq⟩
  unfold advance winner
  simp only [Option.bind_eq_bind, Option.bind_some, hw, hload, hw₁, hreplay]

theorem advances_full (compare : α → α → Bool) (h : Full s t) (hmax : t.n ≤ 2 ^ 30)
    (news : List α) : ∃ t', news.foldlM (advance compare) t = some t' ∧ Full s t' := by
  induction news generalizing t with
  | nil => exact ⟨t, rfl, h⟩
  | cons x news ih =>
    obtain ⟨t₁, hadv, hfull, hn⟩ := advance_full compare h hmax x
    obtain ⟨t', hrest, hfull'⟩ := ih hfull (hn ▸ hmax)
    refine ⟨t', ?_, hfull'⟩
    rw [List.foldlM_cons, hadv]
    exact hrest

/-- A single player is to meet the winner in `B[0]`, which nobody has written. -/
theorem playHigh_none (compare : α → α → Bool) (hn : t.n = 1) (hzero : t.readB 0 = none) :
    playHigh compare t = none := by
  unfold playHigh
  rw [if_pos (by rw [hn]), hn, hzero]
  rfl

theorem initializeTree_none (compare : α → α → Bool) (A : ℕ → α) (hn : n < 2) :
    initializeTree compare A n = none := by
  interval_cases n
  · rfl
  · have hhigh := playHigh_none compare (t := ⟨1, 0, 1, fun _ => none, A⟩) rfl rfl
    unfold initializeTree
    change (playHigh compare ⟨1, 0, 1, fun _ => none, A⟩).bind _ = none
    rw [hhigh]
    rfl

/-- Whatever the keys and the comparison, `initialize` and the merge steps stay inside of `B` and
`L` and read only entries that were written, if and only if there are at least two players, and at
most `2^30`: with more, the measures of the tree leave the range of an `int`. -/
theorem run_isSome_iff (compare : α → α → Bool) (A : ℕ → α) (n : ℕ) (news : List α) :
    (run compare A n news).isSome ↔ 2 ≤ n ∧ n ≤ 2 ^ 30 := by
  constructor
  · intro h
    by_contra hnot
    have hnone : initializeTree compare A n = none := by
      rcases Nat.lt_or_ge n 2 with hlt | hge
      · exact initializeTree_none compare A hlt
      · rw [initializeTree, show 1 = 2 ^ 0 from rfl, lowestLevel_none (by omega) (by decide)]
        rfl
    rw [run, hnone] at h
    cases h
  · rintro ⟨h2, hmax⟩
    obtain ⟨t, s, hinit, hfull, hsize, -⟩ := initializeTree_full compare A h2 hmax
    obtain ⟨t', hrun, -⟩ := advances_full compare hfull (hsize ▸ hmax) news
    rw [run, hinit]
    exact Option.isSome_iff_exists.mpr ⟨t', hrun⟩

/-- One column with the key 7. -/
theorem not_run_isSome_one :
    ¬ ∀ (n : ℕ) (A : ℕ → ℕ) (news : List ℕ), 1 ≤ n →
      (run (fun l r => decide (l ≤ r)) A n news).isSome := by
  intro h
  have hone := h 1 (fun _ => 7) [] le_rfl
  rw [run, initializeTree_none _ _ (by decide)] at hone
  cases hone

end AccessTree
end Mosito
