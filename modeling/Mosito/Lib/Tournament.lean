import Mathlib

/-! Loser trees over a complete binary tree in heap order. With `n` players the
nodes are `1, …, 2n-1`; those below `n` are matches, the others are the players'
leaves. Node `p` has the children `2p` and `2p+1`. -/
namespace Tournament

/-- `s` is the largest power of two below `n`, the first node of the lowest full level. -/
structure Shape (n s : ℕ) : Prop where
  pow : ∃ k, s = 2 ^ k
  lt : s < n
  le : n ≤ 2 * s

/-- The leaf of player `i`: the first `2(n-s)` players are on the lowest level. -/
def leaf (n s i : ℕ) : ℕ := if i ≤ 2 * (n - s) then i + (2 * s - 1) else i - 2 * (n - s) + (n - 1)

def player (n s e : ℕ) : ℕ := if 2 * s ≤ e then e - (2 * s - 1) else e - (n - 1) + 2 * (n - s)

section Leaves
variable {n s : ℕ} (hs : Shape n s)
include hs

theorem Shape.pos : 0 < s := by
  obtain ⟨k, hk⟩ := hs.pow
  have := Nat.two_pow_pos k
  omega

theorem leaf_bounds {i : ℕ} (h1 : 1 ≤ i) (hn : i ≤ n) : n ≤ leaf n s i ∧ leaf n s i < 2 * n := by
  have := hs.lt
  have := hs.le
  unfold leaf
  split <;> omega

theorem player_leaf {i : ℕ} (h1 : 1 ≤ i) (hn : i ≤ n) : player n s (leaf n s i) = i := by
  have := hs.lt
  have := hs.le
  unfold player leaf
  split_ifs <;> omega

theorem player_bounds {e : ℕ} (hn : e < 2 * n) :
    1 ≤ player n s e ∧ player n s e ≤ n := by
  have := hs.lt
  have := hs.le
  unfold player
  split <;> omega

theorem leaf_player {e : ℕ} (h1 : n ≤ e) (hn : e < 2 * n) : leaf n s (player n s e) = e := by
  have := hs.lt
  have := hs.le
  unfold player leaf
  split_ifs <;> omega

end Leaves

/-- The rightmost leaf below a node. -/
def rightmost (n q : ℕ) : ℕ := if q < n then rightmost n (2 * q + 1) else q
termination_by n - q

theorem rightmost_of_lt {n q : ℕ} (h : q < n) : rightmost n q = rightmost n (2 * q + 1) := by
  rw [rightmost, if_pos h]

theorem rightmost_of_ge {n q : ℕ} (h : n ≤ q) : rightmost n q = q := by
  rw [rightmost, if_neg (by omega)]

/-- A node and its rightmost leaf are joined by right children only. -/
theorem rightmost_succ (n q : ℕ) : ∃ k, rightmost n q + 1 = (q + 1) * 2 ^ k := by
  induction q using rightmost.induct n with
  | case1 q h ih =>
    obtain ⟨k, hk⟩ := ih
    refine ⟨k + 1, ?_⟩
    rw [rightmost_of_lt h, hk]
    ring
  | case2 q h => exact ⟨0, by rw [rightmost_of_ge (by omega)]; ring⟩

theorem rightmost_bounds {n q : ℕ} (h : q < 2 * n) : n ≤ rightmost n q ∧ rightmost n q < 2 * n := by
  induction q using rightmost.induct n with
  | case1 q hq ih =>
    rw [rightmost_of_lt hq]
    exact ih (by omega)
  | case2 q hq =>
    rw [rightmost_of_ge (by omega)]
    omega

/-- The rightmost leaf of a match is a right child. -/
theorem rightmost_odd {n q : ℕ} (h : q < n) : rightmost n q % 2 = 1 := by
  rw [rightmost_of_lt h]
  obtain ⟨k, hk⟩ := rightmost_succ n (2 * q + 1)
  have he : (2 * q + 1 + 1) * 2 ^ k = 2 * ((q + 1) * 2 ^ k) := by ring
  omega

/-- Of two nodes with one rightmost leaf the lower one is a right child below the other. -/
theorem right_child_of_rightmost_eq {n r p : ℕ} (h : rightmost n r = rightmost n p) (hlt : r < p) :
    p % 2 = 1 ∧ r ≤ p / 2 := by
  obtain ⟨a, ha⟩ := rightmost_succ n r
  obtain ⟨b, hb⟩ := rightmost_succ n p
  have he : (r + 1) * 2 ^ a = (p + 1) * 2 ^ b := by omega
  have hab : b < a := by
    by_contra hc
    have hp := Nat.pow_le_pow_right (show 0 < 2 by decide) (Nat.not_lt.mp hc)
    have hpos := Nat.two_pow_pos b
    nlinarith
  obtain ⟨d, rfl⟩ := Nat.exists_eq_add_of_lt hab
  have hc : (p + 1) * 2 ^ b = 2 * ((r + 1) * 2 ^ d) * 2 ^ b := by
    rw [← he]
    ring
  have hp := Nat.eq_of_mul_eq_mul_right (Nat.two_pow_pos b) hc
  have hr : r + 1 ≤ (r + 1) * 2 ^ d := Nat.le_mul_of_pos_right _ (Nat.two_pow_pos d)
  omega

/-- The last player below a node. -/
def last (n s q : ℕ) : ℕ := player n s (rightmost n q)

theorem last_of_lt {n s q : ℕ} (h : q < n) : last n s q = last n s (2 * q + 1) := by
  rw [last, rightmost_of_lt h, last]

theorem last_of_ge {n s q : ℕ} (h : n ≤ q) : last n s q = player n s q := by
  rw [last, rightmost_of_ge h]

/-- On one level, nodes further to the right have later players. -/
theorem last_lt_last_succ {n s : ℕ} (hs : Shape n s) {q : ℕ} (hq : q + 1 < 2 * n)
    (hl : ∀ k, q + 1 ≠ 2 ^ k) : last n s q < last n s (q + 1) := by
  have h1 := hs.lt
  have h2 := hs.le
  have hpow : q + 1 ≠ 2 * s := by
    obtain ⟨k, rfl⟩ := hs.pow
    intro he
    exact hl (k + 1) (by rw [he]; ring)
  rcases lt_trichotomy (q + 1) n with hlt | heq | hgt
  · -- two matches: compare the right child of the first with both children of the second
    rw [last_of_lt (show q < n by omega), last_of_lt hlt]
    have hx := last_lt_last_succ hs (q := 2 * q + 1) (by omega) (by
      intro k hk
      cases k with
      | zero => omega
      | succ k => exact hl k (by rw [pow_succ] at hk; omega))
    have hy := last_lt_last_succ hs (q := 2 * q + 1 + 1) (by omega) (by
      intro k hk
      cases k with
      | zero => omega
      | succ k => rw [pow_succ] at hk; omega)
    exact hx.trans hy
  · rw [last_of_lt (show q < n by omega), last_of_ge (show n ≤ 2 * q + 1 by omega),
      last_of_ge (show n ≤ q + 1 by omega)]
    unfold player
    split_ifs <;> omega
  · rw [last_of_ge (show n ≤ q by omega), last_of_ge (show n ≤ q + 1 by omega)]
    unfold player
    split_ifs <;> omega
termination_by 2 * n - q

/-- The last player below a left child comes before the last one below its parent. -/
theorem last_left_lt {n s : ℕ} (hs : Shape n s) {p : ℕ} (h1 : 1 ≤ p) (hp : p < n) :
    last n s (2 * p) < last n s p := by
  rw [last_of_lt hp]
  apply last_lt_last_succ hs (by omega)
  intro k hk
  cases k with
  | zero => omega
  | succ k => rw [pow_succ] at hk; omega

theorem last_le_parent {n s : ℕ} (hs : Shape n s) {c : ℕ} (h2 : 2 ≤ c) (hn : c < 2 * n) :
    last n s c ≤ last n s (c / 2) := by
  rcases Nat.even_or_odd' c with ⟨d, rfl | rfl⟩
  · rw [Nat.mul_div_cancel_left d (by decide)]
    exact (last_left_lt hs (by omega) (by omega)).le
  · rw [show (2 * d + 1) / 2 = d by omega, ← last_of_lt (by omega)]

theorem rightmost_eq_of_last_eq {n s : ℕ} (hs : Shape n s) {r p : ℕ} (hr : r < 2 * n)
    (hp : p < 2 * n) (h : last n s r = last n s p) : rightmost n r = rightmost n p := by
  have h1 := rightmost_bounds hr
  have h2 := rightmost_bounds hp
  rw [← leaf_player hs h1.1 h1.2, ← leaf_player hs h2.1 h2.2]
  exact congrArg _ h

/-- A match of two neighbouring leaves: no match above ends in the left one of them. -/
theorem last_of_leaves {n s : ℕ} (hs : Shape n s) {i p : ℕ} (h2 : 2 ≤ i) (hi : i ≤ n)
    (hl : leaf n s (i - 1) = 2 * p) (hr : leaf n s i = 2 * p + 1) :
    last n s p = i ∧ ∀ c < n, last n s c < i → last n s c ≤ i - 2 := by
  have hlb := leaf_bounds hs (show 1 ≤ i - 1 by omega) (by omega)
  have hrb := leaf_bounds hs (show 1 ≤ i by omega) hi
  rw [hl] at hlb
  rw [hr] at hrb
  constructor
  · rw [last_of_lt (by omega), last_of_ge hrb.1, ← hr, player_leaf hs (by omega) hi]
  · intro c hc hlt
    by_contra hcon
    have he : last n s c = last n s (2 * p) := by
      rw [last_of_ge hlb.1, ← hl, player_leaf hs (by omega) (by omega)]
      omega
    have hrm := rightmost_eq_of_last_eq hs (by omega) hlb.2 he
    rw [rightmost_of_ge hlb.1] at hrm
    have := rightmost_odd hc
    omega

/-- The neighbours of the lowest level. -/
theorem leaves_low {n s : ℕ} (hs : Shape n s) {j : ℕ} (h2 : 2 ≤ j) (hle : j ≤ 2 * (n - s))
    (heven : (2 * (n - s) - j) % 2 = 0) :
    leaf n s (j - 1) = 2 * ((j + (2 * s - 1)) / 2) ∧ leaf n s j = 2 * ((j + (2 * s - 1)) / 2) + 1 := by
  have := hs.lt
  have := hs.le
  unfold leaf
  rw [if_pos (by omega), if_pos (by omega)]
  omega

/-- The neighbours above the lowest level. -/
theorem leaves_high {n s : ℕ} (hs : Shape n s) {j : ℕ} (h2 : 2 * (n - s) + 2 ≤ j) (hle : j ≤ n)
    (heven : (n - j) % 2 = 0) :
    leaf n s (j - 1) = 2 * ((j - 2 * (n - s) + n - 1) / 2) ∧
      leaf n s j = 2 * ((j - 2 * (n - s) + n - 1) / 2) + 1 := by
  have := hs.lt
  have := hs.le
  unfold leaf
  rw [if_neg (by omega), if_neg (by omega)]
  omega

/-- With an odd number of players, the first leaf above the lowest level is node `n`. -/
theorem last_half {n s : ℕ} (hs : Shape n s) (hodd : n % 2 = 1) :
    last n s n = 2 * (n - s) + 1 ∧ last n s (n / 2) = 2 * (n - s) + 1 ∧
      last n s (n - 1) = 2 * (n - s) := by
  have h1 := hs.lt
  have h2 := hs.le
  have hpos := hs.pos
  have hlastn : last n s n = 2 * (n - s) + 1 := by
    rw [last_of_ge le_rfl, player, if_neg (by omega)]
    omega
  refine ⟨hlastn, ?_, ?_⟩
  · rw [last_of_lt (by omega), show 2 * (n / 2) + 1 = n by omega, hlastn]
  · rw [last_of_lt (by omega), last_of_ge (by omega), player, if_pos (by omega)]
    omega

/-! Matches. `W q` is the winner below node `q`, `B p` the loser kept at match `p`. -/

variable {κ : Type*} [LinearOrder κ]

/-- `w` wins and `l` loses a match of `a` and `b`. -/
def Outcome (key : ℕ → κ) (a b w l : ℕ) : Prop :=
  ((w = a ∧ l = b) ∨ (w = b ∧ l = a)) ∧ key w ≤ key l

theorem Outcome.symm {key : ℕ → κ} {a b w l : ℕ} (h : Outcome key a b w l) :
    Outcome key b a w l := ⟨h.1.symm, h.2⟩

/-- The match at `p` is played: its winner goes on, its loser stays. -/
def Match (key : ℕ → κ) (W B : ℕ → ℕ) (p : ℕ) : Prop :=
  Outcome key (W (2 * p)) (W (2 * p + 1)) (W p) (B p)

theorem Match.congr {key : ℕ → κ} {W B W' B' : ℕ → ℕ} {p : ℕ} (h : Match key W B p)
    (hW : W' p = W p) (hl : W' (2 * p) = W (2 * p)) (hr : W' (2 * p + 1) = W (2 * p + 1))
    (hB : B' p = B p) : Match key W' B' p := by
  unfold Match
  rw [hW, hl, hr, hB]
  exact h

/-- Every match is played and the overall winner is in `B 0`. -/
structure Played (n s : ℕ) (key : ℕ → κ) (W B : ℕ → ℕ) : Prop where
  leaves : ∀ e, n ≤ e → e < 2 * n → W e = player n s e
  played : ∀ p, 1 ≤ p → p < n → Match key W B p
  winner : B 0 = W 1

section Played
variable {n s : ℕ} {key : ℕ → κ} {W B : ℕ → ℕ}

theorem Played.parent_le (h : Played n s key W B) {q : ℕ} (hq : 2 ≤ q) (hn : q < 2 * n) :
    key (W (q / 2)) ≤ key (W q) := by
  obtain ⟨hm, hle⟩ := h.played (q / 2) (by omega) (by omega)
  rcases Nat.even_or_odd' q with ⟨c, rfl | rfl⟩
  · rw [Nat.mul_div_cancel_left c (by decide)] at *
    rcases hm with ⟨hw, -⟩ | ⟨-, hb⟩
    · rw [hw]
    · rwa [← hb]
  · rw [show (2 * c + 1) / 2 = c by omega] at *
    rcases hm with ⟨-, hb⟩ | ⟨hw, -⟩
    · rwa [← hb]
    · rw [hw]

theorem Played.root_le (h : Played n s key W B) {q : ℕ} (hq : 1 ≤ q) (hn : q < 2 * n) :
    key (W 1) ≤ key (W q) := by
  induction q using Nat.strong_induction_on with
  | _ q ih =>
    rcases Nat.eq_or_lt_of_le hq with rfl | hlt
    · exact le_rfl
    · exact (ih (q / 2) (by omega) (by omega) (by omega)).trans (h.parent_le hlt hn)

/-- The winner below a node is a player below that node. -/
theorem Played.below (hs : Shape n s) (h : Played n s key W B) {q : ℕ} (hq : 1 ≤ q)
    (hn : q < 2 * n) : (1 ≤ W q ∧ W q ≤ n) ∧ ∃ k, leaf n s (W q) / 2 ^ k = q := by
  rcases Nat.lt_or_ge q n with hlt | hge
  · have hl := Played.below hs h (q := 2 * q) (by omega) (by omega)
    have hr := Played.below hs h (q := 2 * q + 1) (by omega) (by omega)
    rcases (h.played q hq hlt).1 with ⟨hw, -⟩ | ⟨hw, -⟩ <;> rw [hw]
    · obtain ⟨hb, k, hk⟩ := hl
      exact ⟨hb, k + 1, by rw [pow_succ, ← Nat.div_div_eq_div_mul, hk]; omega⟩
    · obtain ⟨hb, k, hk⟩ := hr
      exact ⟨hb, k + 1, by rw [pow_succ, ← Nat.div_div_eq_div_mul, hk]; omega⟩
  · rw [h.leaves q hge hn]
    exact ⟨player_bounds hs hn, 0, by simp [leaf_player hs hge hn]⟩
termination_by 2 * n - q

theorem Played.winner_bounds (hs : Shape n s) (h : Played n s key W B) : 1 ≤ B 0 ∧ B 0 ≤ n := by
  have := hs.lt
  rw [h.winner]
  exact (h.below hs le_rfl (by omega)).1

/-- The overall winner has a least key. -/
theorem Played.winner_le (hs : Shape n s) (h : Played n s key W B) {i : ℕ} (h1 : 1 ≤ i)
    (hn : i ≤ n) : key (B 0) ≤ key i := by
  have hl := leaf_bounds hs h1 hn
  have hr := h.root_le (q := leaf n s i) (by omega) hl.2
  rwa [h.leaves _ hl.1 hl.2, player_leaf hs h1 hn, ← h.winner] at hr

/-- The overall winner has won every match on the way from its leaf to the root. -/
theorem Played.path (hs : Shape n s) (h : Played n s key W B) (k : ℕ)
    (hk : 1 ≤ leaf n s (W 1) / 2 ^ k) : W (leaf n s (W 1) / 2 ^ k) = W 1 := by
  have hlt := hs.lt
  obtain ⟨hb, -⟩ := h.below hs le_rfl (show 1 < 2 * n by omega)
  have hl := leaf_bounds hs hb.1 hb.2
  rcases Nat.lt_or_ge (leaf n s (W 1) / 2 ^ k) 2 with hsmall | hbig
  · rw [show leaf n s (W 1) / 2 ^ k = 1 by omega]
  · -- the parent is won by induction; a winner from the sibling's side is below both children
    have hdiv : leaf n s (W 1) / 2 ^ (k + 1) = leaf n s (W 1) / 2 ^ k / 2 := by
      rw [pow_succ, Nat.div_div_eq_div_mul]
    have hle : leaf n s (W 1) / 2 ^ k ≤ leaf n s (W 1) := Nat.div_le_self _ _
    have ih := Played.path hs h (k + 1) (by omega)
    rw [hdiv] at ih
    generalize hc : leaf n s (W 1) / 2 ^ k = c at *
    have hm := (h.played (c / 2) (by omega) (by omega)).1
    have hside (d : ℕ) (hd : d / 2 = c / 2) (hw : W (c / 2) = W d) : W c = W 1 := by
      obtain ⟨-, j, hj⟩ := h.below hs (q := d) (by omega) (by omega)
      rw [← hw, ih] at hj
      have hcd : c = d := by
        rcases Nat.lt_trichotomy k j with hkj | rfl | hkj
        · obtain ⟨m, rfl⟩ := Nat.exists_eq_add_of_lt hkj
          have : d ≤ c / 2 := by
            rw [← hj, ← hc, Nat.div_div_eq_div_mul, ← pow_succ]
            exact Nat.div_le_div_left (Nat.pow_le_pow_right (by decide) (by omega))
              (Nat.two_pow_pos _)
          omega
        · omega
        · obtain ⟨m, rfl⟩ := Nat.exists_eq_add_of_lt hkj
          have : c ≤ d / 2 := by
            rw [← hj, ← hc, Nat.div_div_eq_div_mul, ← pow_succ]
            exact Nat.div_le_div_left (Nat.pow_le_pow_right (by decide) (by omega))
              (Nat.two_pow_pos _)
          omega
      rw [hcd, ← hw, ih]
    rcases hm with ⟨hw, -⟩ | ⟨hw, -⟩
    · exact hside _ (by omega) hw
    · exact hside _ (by omega) hw
termination_by leaf n s (W 1) / 2 ^ k
decreasing_by
  rw [hdiv]
  omega

/-- Level by level the winners of the nodes `m, …, 2m-1` are the overall winner and the
losers of the matches above them. -/
theorem Played.frontier (h : Played n s key W B) {m : ℕ} (h1 : 1 ≤ m) (hm : m ≤ n) :
    ((List.range' m m).map W).Perm ((List.range m).map B) := by
  induction m, h1 using Nat.le_induction with
  | base => simp [h.winner]
  | succ m h1 ih =>
    -- node `m` gives way to its children, whose winners are its own winner and its loser
    have hpair : [W (2 * m), W (2 * m + 1)].Perm [W m, B m] := by
      rcases (h.played m h1 (by omega)).1 with ⟨hw, hb⟩ | ⟨hw, hb⟩ <;> rw [hw, hb]
      exact List.Perm.swap _ _ _
    have hsplit : List.range' m (m + 2) = m :: List.range' (m + 1) (m + 1) := List.range'_succ
    have hjoin : List.range' m (m + 2) = List.range' m m ++ [2 * m, 2 * m + 1] := by
      rw [← List.range'_append_1, show m + m = 2 * m by ring]
      rfl
    rw [← List.perm_cons (W m)]
    calc W m :: (List.range' (m + 1) (m + 1)).map W
        = (List.range' m m).map W ++ [W (2 * m), W (2 * m + 1)] := by
          rw [← List.map_cons, ← hsplit, hjoin, List.map_append]
          rfl
      _ |>.Perm ((List.range m).map B ++ [W m, B m]) := (ih (by omega)).append hpair
      _ |>.Perm (W m :: (List.range (m + 1)).map B) := by
          rw [List.range_succ, List.map_append]
          exact List.perm_middle

/-- The leaves hold every player once. -/
theorem player_perm (hs : Shape n s) :
    ((List.range' n n).map (player n s)).Perm (List.range' 1 n) := by
  have h1 := hs.lt
  have h2 := hs.le
  have hupper : (List.range' n (2 * s - n)).map (player n s) =
      List.range' (2 * (n - s) + 1) (2 * s - n) := by
    apply List.ext_getElem (by simp)
    intro i hi _
    simp only [List.length_map, List.length_range'] at hi
    simp only [List.getElem_map, List.getElem_range', player]
    split <;> omega
  have hlower : (List.range' (2 * s) (2 * (n - s))).map (player n s) =
      List.range' 1 (2 * (n - s)) := by
    apply List.ext_getElem (by simp)
    intro i hi _
    simp only [List.getElem_map, List.getElem_range', player]
    split <;> omega
  have hleaves : List.range' n n =
      List.range' n (2 * s - n) ++ List.range' (2 * s) (2 * (n - s)) := by
    rw [show 2 * s = n + (2 * s - n) by omega, Nat.add_sub_cancel_left, List.range'_append_1]
    congr 1
    omega
  have hplayers : List.range' 1 n =
      List.range' 1 (2 * (n - s)) ++ List.range' (2 * (n - s) + 1) (2 * s - n) := by
    rw [Nat.add_comm _ 1, List.range'_append_1]
    congr 1
    omega
  rw [hleaves, hplayers, List.map_append, hupper, hlower]
  exact List.perm_append_comm

/-- The winner and the losers are all the players. -/
theorem Played.losers_perm (hs : Shape n s) (h : Played n s key W B) :
    ((List.range n).map B).Perm (List.range' 1 n) := by
  have hlt := hs.lt
  have hleaves : (List.range' n n).map W = (List.range' n n).map (player n s) := by
    apply List.map_congr_left
    intro e he
    rw [List.mem_range'_1] at he
    exact h.leaves e he.1 (by omega)
  exact (h.frontier (by omega) le_rfl).symm.trans (hleaves ▸ player_perm hs)

end Played

/-! Replaying the matches of one player after its key has changed. -/

/-- The other child of a node's parent. -/
def sibling (c : ℕ) : ℕ := if c % 2 = 0 then c + 1 else c - 1

/-- All matches but those above `p` are played, and the matches above `p` still keep the
winners of the branches that join the way from `p` to the root. -/
structure Climbing (n s : ℕ) (key : ℕ → κ) (p : ℕ) (W B : ℕ → ℕ) : Prop where
  leaves : ∀ e, n ≤ e → e < 2 * n → W e = player n s e
  played : ∀ r, 1 ≤ r → r < n → (∀ k, p / 2 ^ (k + 1) ≠ r) → Match key W B r
  side : ∀ k, 1 ≤ p / 2 ^ (k + 1) → B (p / 2 ^ (k + 1)) = W (sibling (p / 2 ^ k))

section Climbing
variable {n s : ℕ} {key : ℕ → κ} {W B : ℕ → ℕ}

/-- Whatever the new key of the winner is, only the matches above its leaf are affected. -/
theorem Played.climbing (hs : Shape n s) (h : Played n s key W B) {key' : ℕ → κ}
    (hkey : ∀ j, 1 ≤ j → j ≤ n → j ≠ B 0 → key' j = key j) :
    Climbing n s key' (leaf n s (B 0)) W B := by
  have hlt := hs.lt
  have hbel {c : ℕ} (h1 : 1 ≤ c) (hn : c < 2 * n) (hc : W c = B 0) :
      ∃ k, leaf n s (B 0) / 2 ^ k = c := hc ▸ (h.below hs h1 hn).2
  have hdiv (e k : ℕ) : e / 2 ^ (k + 1) = e / 2 ^ k / 2 := by
    rw [pow_succ, Nat.div_div_eq_div_mul]
  refine ⟨h.leaves, fun r h1 hr hk => ?_, fun k hk => ?_⟩
  · have hout := h.played r h1 hr
    have hchild (c : ℕ) (hc : c / 2 = r) : W c ≠ B 0 := by
      intro he
      obtain ⟨k, hk'⟩ := hbel (by omega) (by omega) he
      exact hk k (by rw [hdiv, hk', hc])
    have hsame (c : ℕ) (hc : c / 2 = r) : key' (W c) = key (W c) := by
      have hb := (h.below hs (q := c) (by omega) (by omega)).1
      exact hkey _ hb.1 hb.2 (hchild c hc)
    have hl := hsame (2 * r) (by omega)
    have hr' := hsame (2 * r + 1) (by omega)
    obtain ⟨hwl, hle⟩ := hout
    refine ⟨hwl, ?_⟩
    rcases hwl with ⟨hw, hb⟩ | ⟨hw, hb⟩ <;> rw [hw, hb] at hle ⊢ <;> rwa [hl, hr']
  · have hbd := h.winner_bounds hs
    have hlf := leaf_bounds hs hbd.1 hbd.2
    have hp := h.path hs (k + 1) (h.winner ▸ hk)
    have hc := h.path hs k (by rw [← h.winner]; rw [hdiv] at hk; omega)
    rw [← h.winner] at hp hc
    have hle : leaf n s (B 0) / 2 ^ k ≤ leaf n s (B 0) := Nat.div_le_self _ _
    rw [hdiv] at hk hp ⊢
    generalize leaf n s (B 0) / 2 ^ k = c at *
    have hm := (h.played (c / 2) hk (by omega)).1
    unfold sibling
    rcases Nat.even_or_odd' c with ⟨d, rfl | rfl⟩
    · rw [Nat.mul_div_cancel_left d (by decide)] at *
      rw [if_pos (by omega)]
      rcases hm with ⟨-, hb⟩ | ⟨hw, hb⟩
      · exact hb
      · rw [hb, hc, ← hw, hp]
    · rw [show (2 * d + 1) / 2 = d by omega] at *
      rw [if_neg (by omega), Nat.add_sub_cancel]
      rcases hm with ⟨hw, hb⟩ | ⟨-, hb⟩
      · rw [hb, hc, ← hw, hp]
      · exact hb

/-- One match on the way up, between the winner below `p` and the winner of the side branch. -/
theorem Climbing.step {p w l : ℕ} {C : ℕ → ℕ} (h : Climbing n s key p W B) (hp : 2 ≤ p)
    (hn : p < 2 * n) (ho : Outcome key (W p) (B (p / 2)) w l) (hl : C (p / 2) = l)
    (hB : ∀ r, 1 ≤ r → r ≠ p / 2 → C r = B r) :
    Climbing n s key (p / 2) (Function.update W (p / 2) w) C := by
  have hdiv (k : ℕ) : p / 2 / 2 ^ k = p / 2 ^ (k + 1) := by
    rw [Nat.div_div_eq_div_mul, pow_succ, Nat.mul_comm]
  have hup {c : ℕ} (hc : c ≠ p / 2) : Function.update W (p / 2) w c = W c :=
    Function.update_of_ne hc _ _
  refine ⟨fun e h1 h2 => ?_, fun r h1 hr hk => ?_, fun k hk => ?_⟩
  · rw [hup (by omega)]
    exact h.leaves e h1 h2
  · by_cases hrp : r = p / 2
    · subst hrp
      have hs0 := h.side 0 (by simpa using h1)
      simp only [zero_add, pow_one, pow_zero, Nat.div_one] at hs0
      rw [hs0] at ho
      unfold Match
      rw [Function.update_self, hl, hup (by omega), hup (by omega)]
      unfold sibling at ho
      rcases Nat.even_or_odd' p with ⟨d, hd | hd⟩
      · rw [if_pos (by omega), hd] at ho
        rw [hd, Nat.mul_div_cancel_left d (by decide)]
        exact ho
      · rw [if_neg (by omega), hd, Nat.add_sub_cancel] at ho
        rw [hd, show (2 * d + 1) / 2 = d by omega]
        exact ho.symm
    · apply (h.played r h1 hr ?_).congr (hup hrp) (hup ?_) (hup ?_) (hB r h1 hrp)
      · intro k
        cases k with
        | zero => simpa [eq_comm] using hrp
        | succ k => rw [← hdiv]; exact hk k
      · intro he
        exact hk 0 (by rw [← he]; omega)
      · intro he
        exact hk 0 (by rw [← he]; omega)
  · have hk2 : p / 2 / 2 ^ (k + 1) = p / 2 / 2 ^ k / 2 := by
      rw [pow_succ, Nat.div_div_eq_div_mul (p / 2)]
    have hle : p / 2 / 2 ^ k ≤ p / 2 := Nat.div_le_self _ _
    have hne : sibling (p / 2 / 2 ^ k) ≠ p / 2 := by
      unfold sibling
      rcases k with _ | k
      · rw [pow_zero, Nat.div_one]
        split <;> omega
      · have : p / 2 / 2 ^ (k + 1) ≤ p / 2 / 2 ^ 1 :=
          Nat.div_le_div_left (Nat.pow_le_pow_right (by decide) (by omega)) (by decide)
        split <;> omega
    rw [hB _ hk (by omega), hup hne, hdiv, hdiv, h.side (k + 1) (by rw [← hdiv]; exact hk)]

/-- At the root nothing is left to play. -/
theorem Climbing.root (h : Climbing n s key 1 W B) (hw : B 0 = W 1) : Played n s key W B := by
  refine ⟨h.leaves, fun p h1 hp => h.played p h1 hp fun k => ?_, hw⟩
  rw [Nat.div_eq_of_lt (Nat.one_lt_two_pow (by omega))]
  omega

end Climbing

/-! Building the tree from the left: a match is done once its last player has come. -/

/-- The matches in `D` are played; a left child in `D` whose parent is not has left its
winner there, except for the node `p` whose winner is still in hand. -/
structure Building (n s : ℕ) (key : ℕ → κ) (D : ℕ → Prop) (p : Option ℕ) (W B : ℕ → ℕ) :
    Prop where
  leaves : ∀ e, n ≤ e → e < 2 * n → W e = player n s e
  played : ∀ r, 1 ≤ r → r < n → D r → Match key W B r
  waiting : ∀ c, 1 ≤ c → c < n → D c → c % 2 = 0 → ¬ D (c / 2) → p ≠ some c → B (c / 2) = W c

section Building
variable {n s : ℕ} {key : ℕ → κ} {W B : ℕ → ℕ} {D E : ℕ → Prop}

theorem Building.congr {p : Option ℕ} (h : Building n s key D p W B)
    (hD : ∀ r, 1 ≤ r → r < n → (E r ↔ D r)) : Building n s key E p W B := by
  refine ⟨h.leaves, fun r h1 hr hr' => h.played r h1 hr ((hD r h1 hr).mp hr'), ?_⟩
  intro c h1 hc hDc he hnD hne
  have hc2 := hD (c / 2) (by omega) (by omega)
  exact h.waiting c h1 hc ((hD c h1 hc).mp hDc) he (fun hh => hnD (hc2.mpr hh)) hne

/-- Playing the match at `q`, whose children are done. -/
theorem Building.play {p : Option ℕ} {q w l : ℕ} (h : Building n s key D p W B) (h1 : 1 ≤ q)
    (hq : q < n) (hD : ¬ D q) (hp : ∀ c, p = some c → c / 2 = q)
    (hE : ∀ r, 1 ≤ r → r < n → (E r ↔ D r ∨ r = q))
    (hchild : ∀ r, 1 ≤ r → r < n → D r → r ≠ q / 2)
    (ho : Outcome key (W (2 * q)) (W (2 * q + 1)) w l) :
    Building n s key E (some q) (Function.update W q w) (Function.update B q l) := by
  have hW {c : ℕ} (hc : c ≠ q) : Function.update W q w c = W c := Function.update_of_ne hc _ _
  have hB {c : ℕ} (hc : c ≠ q) : Function.update B q l c = B c := Function.update_of_ne hc _ _
  refine ⟨fun e he hn => ?_, fun r hr1 hr hr' => ?_, fun c hc1 hc hDc he hnD hne => ?_⟩
  · rw [hW (by omega)]
    exact h.leaves e he hn
  · by_cases hrq : r = q
    · subst hrq
      unfold Match
      rw [Function.update_self, Function.update_self, hW (by omega), hW (by omega)]
      exact ho
    · have hDr := ((hE r hr1 hr).mp hr').resolve_right hrq
      have hc := hchild r hr1 hr hDr
      exact (h.played r hr1 hr hDr).congr (hW hrq) (hW (by omega)) (hW (by omega)) (hB hrq)
  · have hcq : c ≠ q := fun hh => hne (by rw [hh])
    have hc2 := hE (c / 2) (by omega) (by omega)
    have hDc' := ((hE c hc1 hc).mp hDc).resolve_right hcq
    have hnot := not_or.mp (fun hh => hnD (hc2.mpr hh))
    rw [hB hnot.2, hW hcq]
    exact h.waiting c hc1 hc hDc' he hnot.1 fun hh => hnot.2 (hp c hh)

/-- Leaving the winner in hand at its parent. -/
theorem Building.leave {p : ℕ} (h : Building n s key D (some p) W B) (he : p = 1 ∨ p % 2 = 0)
    (hD : ¬ D (p / 2)) : Building n s key D none W (Function.update B (p / 2) (W p)) := by
  refine ⟨h.leaves, fun r h1 hr hDr => ?_, fun c h1 hc hDc hev hnD _ => ?_⟩
  · have hne : r ≠ p / 2 := fun hh => hD (hh ▸ hDr)
    exact (h.played r h1 hr hDr).congr rfl rfl rfl (Function.update_of_ne hne _ _)
  · by_cases hcp : c = p
    · rw [hcp, Function.update_self]
    · rw [Function.update_of_ne (by omega)]
      exact h.waiting c h1 hc hDc hev hnD fun hh => hcp (Option.some.inj hh).symm

end Building

end Tournament
