import Mathlib

/-! The statement list of a parse: the actions of the `stmt_list` rules, the linked list that
`newStmt` builds, and the error counter that decides whether the list is published. -/
namespace Mosito
variable {α : Type}

/-- `struct Stmt`; its `type` is always `t_stmt`. -/
structure Stmt (α : Type) where
  data : α
  next : Option ℕ
  last : ℕ

/-- The semantic value of a `stmt_list`. The `error` token has the value of the last token
that the scanner gave one, which is no `Stmt`, or null without such a token. -/
inductive SemVal where
  | null
  | list (addr : ℕ)
  | token
  deriving DecidableEq

/-- A statement as it is reduced: well formed with its tree, or by an error production.
`lexed` says that a token with a value was read before the error. -/
inductive Statement (α : Type) where
  | stmt (data : α)
  | error (lexed : Bool)

/-- The globals of the parser; `heap` are the `Stmt` nodes, `used` of which are allocated. -/
structure SqlParser (α : Type) where
  heap : ℕ → Option (Stmt α)
  used : ℕ
  errorNumber : ℕ
  parsetreeroot : Option ℕ

namespace SqlParser

def start : SqlParser α := ⟨fun _ => none, 0, 0, none⟩

/-- The list's address, and the nodes after the call; `none` when a pointer that is no `Stmt`
is followed. -/
def newStmt (list : SemVal) (newNode : α) (p : SqlParser α) : Option (ℕ × SqlParser α) :=
  let a := p.used
  let heap := Function.update p.heap a (some ⟨newNode, none, a⟩)
  match list with
  | .null => some (a, { p with heap := heap, used := a + 1 })
  | .token => none
  | .list l =>
      (heap l).bind fun head =>
        (heap head.last).bind fun tail =>
          let heap := Function.update heap head.last (some { tail with next := some a })
          (heap l).map fun head =>
            (l, { p with heap := Function.update heap l (some { head with last := a })
                         used := a + 1 })

/-- The action of the rule that reduces a statement; without a list before it, the first rules
are meant. The error productions leave `$$` at `$1`. -/
def reduce (list : Option SemVal) (s : Statement α) (p : SqlParser α) :
    Option (SemVal × SqlParser α) :=
  match s with
  | .stmt d => (newStmt (list.getD .null) d p).map fun r =>
      (.list r.1, { r.2 with parsetreeroot := if r.2.errorNumber = 0 then some r.1 else none })
  | .error lexed =>
      some (list.getD (if lexed then .token else .null),
        { p with parsetreeroot := none, errorNumber := p.errorNumber + 1 })

/-- The reductions of a parse, from left to right. -/
def stmtList : Option SemVal → List (Statement α) → SqlParser α → Option (SqlParser α)
  | _, [], p => some p
  | list, s :: ss, p => (reduce list s p).bind fun r => stmtList (some r.1) ss r.2

/-- One parse; the resets of `errorNumber` and `globalReadOffset` are commented out. -/
def getparsetreeroot (ss : List (Statement α)) (p : SqlParser α) : Option (SqlParser α) :=
  stmtList none ss { p with parsetreeroot := none }

/-- The states after each parse of a session. -/
def execute : List (List (Statement α)) → SqlParser α → Option (List (SqlParser α))
  | [], _ => some []
  | ss :: session, p =>
      (getparsetreeroot ss p).bind fun p => (execute session p).map (p :: ·)

end SqlParser

/-- Following `next` from a pointer to NULL meets these trees. -/
inductive Chain (heap : ℕ → Option (Stmt α)) : Option ℕ → List α → Prop where
  | null : Chain heap none []
  | next {a l : ℕ} {d : α} {b : Option ℕ} {ds : List α} (h : heap a = some ⟨d, b, l⟩)
      (rest : Chain heap b ds) : Chain heap (some a) (d :: ds)

namespace Statement

def isError : Statement α → Bool
  | .stmt _ => false
  | .error _ => true

/-- The tree of a well-formed statement. -/
def tree : Statement α → Option α
  | .stmt d => some d
  | .error _ => none

end Statement

namespace SqlParser

/-- The parse has an erroneous statement. -/
def HasError (ss : List (Statement α)) : Prop := ∃ s ∈ ss, s.isError = true

/-- The root is null exactly for an erroneous parse, and else lists its trees in order. -/
def Published (ss : List (Statement α)) (p : SqlParser α) : Prop :=
  (p.parsetreeroot = none ↔ HasError ss) ∧
    (¬ HasError ss → Chain p.heap p.parsetreeroot (ss.filterMap Statement.tree))

/-- Every parse of the session publishes its own statements. -/
def SessionPublished (session : List (List (Statement α))) : Prop :=
  ∃ states, execute session start = some states ∧ List.Forall₂ Published session states

/-! The list between its head and its last node. -/

/-- The nodes from `a` to `z` hold the trees `ds`, and `z` is the end of the list. Later nodes
have higher addresses. -/
inductive Seg (heap : ℕ → Option (Stmt α)) : ℕ → ℕ → List α → Prop where
  | last {a l : ℕ} {d : α} (h : heap a = some ⟨d, none, l⟩) : Seg heap a a [d]
  | cons {a b z l : ℕ} {d : α} {ds : List α} (h : heap a = some ⟨d, some b, l⟩) (hlt : a < b)
      (rest : Seg heap b z ds) : Seg heap a z (d :: ds)

theorem Seg.le {heap : ℕ → Option (Stmt α)} {a z : ℕ} {ds : List α} (h : Seg heap a z ds) :
    a ≤ z := by
  induction h with
  | last => exact le_rfl
  | cons _ hlt _ ih => omega

theorem Seg.end_node {heap : ℕ → Option (Stmt α)} {a z : ℕ} {ds : List α} (h : Seg heap a z ds) :
    ∃ d l, heap z = some ⟨d, none, l⟩ := by
  induction h with
  | last h => exact ⟨_, _, h⟩
  | cons _ _ _ ih => exact ih

theorem Seg.chain {heap : ℕ → Option (Stmt α)} {a z : ℕ} {ds : List α} (h : Seg heap a z ds) :
    Chain heap (some a) ds := by
  induction h with
  | last h => exact .next h .null
  | cons h _ _ ih => exact .next h ih

/-- A new node `n` behind the end: the nodes before the end keep their tree and `next`. -/
theorem Seg.snoc {heap heap' : ℕ → Option (Stmt α)} {a z n : ℕ} {ds : List α} {d : α}
    (h : Seg heap a z ds) (hn : z < n)
    (hkeep : ∀ b x, a ≤ b → b < z → heap b = some x → ∃ l, heap' b = some ⟨x.data, x.next, l⟩)
    (hend : ∀ x, heap z = some x → ∃ l, heap' z = some ⟨x.data, some n, l⟩)
    (hnew : ∃ l, heap' n = some ⟨d, none, l⟩) : Seg heap' a n (ds ++ [d]) := by
  obtain ⟨ln, hnew⟩ := hnew
  induction h with
  | last h =>
    obtain ⟨l, hl⟩ := hend _ h
    exact .cons hl hn (.last hnew)
  | cons h hlt rest ih =>
    obtain ⟨l, hl⟩ := hkeep _ _ le_rfl (hlt.trans_le rest.le) h
    exact .cons hl hlt (ih hn (fun b x hb => hkeep b x (by omega)) hend)

/-- The list at `l` holds the trees `ds`, and its head knows its end. -/
def Owned (p : SqlParser α) (l : ℕ) (ds : List α) : Prop :=
  ∃ z, Seg p.heap l z ds ∧ z < p.used ∧ ∃ d b, p.heap l = some ⟨d, b, z⟩

theorem newStmt_null (d : α) (p : SqlParser α) : ∃ p', newStmt .null d p = some (p.used, p') ∧
    Owned p' p.used [d] ∧ p'.errorNumber = p.errorNumber := by
  refine ⟨_, rfl, ⟨p.used, .last (l := p.used) ?_, Nat.lt_succ_self _, d, none, ?_⟩, rfl⟩
  · exact Function.update_self _ _ _
  · exact Function.update_self _ _ _

/-- `newStmt` appends to the list it is given. -/
theorem newStmt_list (d : α) {p : SqlParser α} {l : ℕ} {ds : List α} (h : Owned p l ds) :
    ∃ p', newStmt (.list l) d p = some (l, p') ∧ Owned p' l (ds ++ [d]) ∧
      p'.errorNumber = p.errorNumber := by
  obtain ⟨z, hseg, hz, e, b, hhead⟩ := h
  obtain ⟨dz, lz, htail⟩ := hseg.end_node
  have hle := hseg.le
  have hold {c : ℕ} (hc : c < p.used) (x : Stmt α) :
      Function.update p.heap p.used (some x) c = p.heap c := Function.update_of_ne hc.ne _ _
  -- the head after its tail got a successor; both may be one node
  obtain ⟨head, hhead', hdata⟩ : ∃ head, Function.update
      (Function.update p.heap p.used (some ⟨d, none, p.used⟩)) z (some ⟨dz, some p.used, lz⟩) l =
        some head ∧ head.data = e ∧ head.next = if l = z then some p.used else b := by
    by_cases hlz : l = z
    · subst hlz
      rw [hhead] at htail
      cases htail
      exact ⟨_, Function.update_self _ _ _, rfl, by simp⟩
    · rw [Function.update_of_ne hlz, hold (by omega), hhead]
      exact ⟨_, rfl, rfl, by simp [hlz]⟩
  have happend : Seg (Function.update (Function.update (Function.update p.heap p.used
      (some ⟨d, none, p.used⟩)) z (some ⟨dz, some p.used, lz⟩)) l
      (some { head with last := p.used })) l p.used (ds ++ [d]) := by
    refine hseg.snoc hz (fun c x hlc hcz hx => ?_) (fun x hx => ?_) ⟨p.used, ?_⟩
    · by_cases hcl : c = l
      · subst hcl
        rw [hhead] at hx
        cases hx
        exact ⟨p.used, by rw [Function.update_self, hdata.1, hdata.2, if_neg (by omega)]⟩
      · exact ⟨x.last, by
          rw [Function.update_of_ne hcl, Function.update_of_ne (by omega), hold (by omega), hx]⟩
    · rw [htail] at hx
      cases hx
      by_cases hzl : z = l
      · subst hzl
        rw [hhead] at htail
        cases htail
        exact ⟨p.used, by rw [Function.update_self, hdata.1, hdata.2, if_pos rfl]⟩
      · exact ⟨lz, by rw [Function.update_of_ne hzl, Function.update_self]⟩
    · rw [Function.update_of_ne (by omega), Function.update_of_ne (by omega), Function.update_self]
  have hnew : newStmt (.list l) d p = some (l, { p with
      heap := Function.update (Function.update (Function.update p.heap p.used
        (some ⟨d, none, p.used⟩)) z (some ⟨dz, some p.used, lz⟩)) l
        (some { head with last := p.used })
      used := p.used + 1 }) := by
    simp only [newStmt, hold (show l < p.used by omega), hhead, Option.bind_some, hold hz, htail,
      hhead', Option.map_some]
  exact ⟨_, hnew, ⟨p.used, happend, Nat.lt_succ_self _, head.data, head.next,
    Function.update_self _ _ _⟩, rfl⟩

/-! The reductions of one parse. -/

/-- The trees of the list that a reduction starts from, if there is a list to extend. -/
def Ready (p : SqlParser α) (ds : List α) : Option SemVal → Prop
  | none | some .null => ds = []
  | some (.list l) => Owned p l ds
  | some .token => False

/-- The root shows the list `l` unless errors were counted. -/
def Shows (p : SqlParser α) (l : ℕ) : Prop :=
  p.parsetreeroot = if p.errorNumber = 0 then some l else none

/-- A well-formed statement goes behind the others. -/
theorem reduce_stmt (d : α) {list : Option SemVal} {p : SqlParser α} {ds : List α}
    (h : Ready p ds list) : ∃ l p', reduce list (.stmt d) p = some (.list l, p') ∧
      Owned p' l (ds ++ [d]) ∧ p'.errorNumber = p.errorNumber ∧ Shows p' l := by
  have hnew : ∃ l p', newStmt (list.getD .null) d p = some (l, p') ∧ Owned p' l (ds ++ [d]) ∧
      p'.errorNumber = p.errorNumber := by
    match list, h with
    | none, h | some .null, h =>
      obtain rfl : ds = [] := h
      obtain ⟨p', hp', ho, he⟩ := newStmt_null d p
      exact ⟨_, p', hp', ho, he⟩
    | some (.list l), h =>
      obtain ⟨p', hp', ho, he⟩ := newStmt_list d (show Owned p l ds from h)
      exact ⟨l, p', hp', ho, he⟩
  obtain ⟨l, p', hp', ho, he⟩ := hnew
  refine ⟨l, { p' with parsetreeroot := if p'.errorNumber = 0 then some l else none }, ?_, ho, he, rfl⟩
  rw [reduce, hp', Option.map_some]

/-- No well-formed statement comes when `$1` has the value of a token. -/
def Defined : Option SemVal → List (Statement α) → Prop
  | some .token, ss | none, .error true :: ss => ∀ s ∈ ss, s.isError = true
  | _, _ => True

/-- What the next reduction starts from. -/
theorem reduce_error (lexed : Bool) {list : Option SemVal} {ss : List (Statement α)}
    {p : SqlParser α} {ds : List α} (h : list = some .token ∨ Ready p ds list)
    (hd : Defined list (.error lexed :: ss)) :
    ∃ v, reduce list (.error lexed) p =
        some (v, { p with parsetreeroot := none, errorNumber := p.errorNumber + 1 }) ∧
      (some v = some .token ∨
        Ready { p with parsetreeroot := none, errorNumber := p.errorNumber + 1 } ds (some v)) ∧
      Defined (some v) ss := by
  refine ⟨_, rfl, ?_⟩
  match list, lexed with
  | none, true => exact ⟨Or.inl rfl, hd⟩
  | none, false | some .null, _ | some (.list _), _ =>
    exact ⟨Or.inr (h.resolve_left (by simp)), trivial⟩
  | some .token, _ => exact ⟨Or.inl rfl, fun s hs => hd s (List.mem_cons_of_mem _ hs)⟩

/-- The errors of a parse are counted, and its last statement decides about the root. -/
theorem stmtList_defined {list : Option SemVal} {ss : List (Statement α)} {p : SqlParser α}
    {ds : List α} (h : list = some .token ∨ Ready p ds list) (hd : Defined list ss) :
    ∃ p', stmtList list ss p = some p' ∧
      p'.errorNumber = p.errorNumber + (ss.filter Statement.isError).length ∧
      (ss ≠ [] → (p'.parsetreeroot = none ↔ p'.errorNumber ≠ 0)) := by
  induction ss generalizing list p ds with
  | nil => exact ⟨p, rfl, rfl, fun hne => absurd rfl hne⟩
  | cons s ss ih =>
    obtain ⟨v, p₁, hred, hready, hdef, hcount, hroot⟩ : ∃ v p₁, reduce list s p = some (v, p₁) ∧
        (∃ ds', some v = some .token ∨ Ready p₁ ds' (some v)) ∧ Defined (some v) ss ∧
        p₁.errorNumber = p.errorNumber + ([s].filter Statement.isError).length ∧
        (p₁.parsetreeroot = none ↔ p₁.errorNumber ≠ 0) := by
      cases s with
      | stmt d =>
        have hr : Ready p ds list := by
          refine h.resolve_left fun hl => ?_
          rw [hl] at hd
          exact absurd (hd (.stmt d) (by simp)) (by simp [Statement.isError])
        obtain ⟨l, p₁, hred, ho, he, hshow⟩ := reduce_stmt d hr
        refine ⟨_, p₁, hred, ⟨_, Or.inr ho⟩, trivial, he, ?_⟩
        rw [hshow]
        split <;> simp_all
      | error lexed =>
        obtain ⟨v, hred, hready, hdef⟩ := reduce_error lexed h hd
        exact ⟨v, _, hred, ⟨ds, hready⟩, hdef, rfl, by simp⟩
    obtain ⟨ds', hready⟩ := hready
    obtain ⟨p', hp', hcount', hroot'⟩ := ih hready hdef
    refine ⟨p', by rw [stmtList, hred]; exact hp', ?_, fun _ => ?_⟩
    · rw [hcount', hcount, Nat.add_assoc, ← List.length_append, ← List.filter_append]
      rfl
    · by_cases hne : ss = []
      · subst hne
        cases hp'
        exact hroot
      · exact hroot' hne

/-- A well-formed statement after the value of a token follows no `Stmt`. -/
theorem stmtList_token {ss : List (Statement α)} {p : SqlParser α}
    (hd : ¬ Defined (some .token) ss) : stmtList (some .token) ss p = none := by
  induction ss generalizing p with
  | nil => exact absurd (fun s hs => absurd hs (List.not_mem_nil)) hd
  | cons s ss ih =>
    cases s with
    | stmt d => rfl
    | error lexed =>
      rw [stmtList]
      exact ih fun hss => hd fun s hs => by
        rcases List.mem_cons.mp hs with rfl | hs
        · rfl
        · exact hss s hs

/-- Without errors, the root shows the list of all trees. -/
theorem stmtList_chain {list : Option SemVal} {ss : List (Statement α)} {p p' : SqlParser α}
    {ds : List α} (h : Ready p ds list) (he : p.errorNumber = 0) (hgood : ¬ HasError ss)
    (hroot : ss = [] → ∃ l, list = some (.list l) ∧ p.parsetreeroot = some l)
    (hp' : stmtList list ss p = some p') :
    ∃ l, p'.parsetreeroot = some l ∧ Owned p' l (ds ++ ss.filterMap Statement.tree) := by
  induction ss generalizing list p ds with
  | nil =>
    obtain ⟨l, rfl, hl⟩ := hroot rfl
    cases hp'
    exact ⟨l, hl, by simpa using (show Owned p' l ds from h)⟩
  | cons s ss ih =>
    cases s with
    | stmt d =>
      obtain ⟨l, p₁, hred, ho, he₁, hshow⟩ := reduce_stmt d h
      rw [stmtList, hred] at hp'
      have hready : Ready p₁ (ds ++ [d]) (some (.list l)) := ho
      obtain ⟨l', hl', ho'⟩ := ih hready (he₁.trans he)
        (fun hh => hgood (hh.imp fun s hs => ⟨List.mem_cons_of_mem _ hs.1, hs.2⟩))
        (fun _ => ⟨l, rfl, by rw [hshow, he₁, he]; rfl⟩) hp'
      exact ⟨l', hl', by simpa [Statement.tree] using ho'⟩
    | error lexed => exact absurd ⟨_, List.mem_cons_self, rfl⟩ hgood

/-! Parses and sessions. -/

theorem hasError_iff_filter {ss : List (Statement α)} :
    HasError ss ↔ (ss.filter Statement.isError).length ≠ 0 := by
  rw [HasError, Ne, List.length_eq_zero_iff, List.filter_eq_nil_iff]
  push Not
  rfl

/-- A parse is published exactly if it has an error or no error was counted before it. -/
theorem getparsetreeroot_published {ss : List (Statement α)} (hne : ss ≠ []) (hd : Defined none ss)
    (p : SqlParser α) : ∃ p', getparsetreeroot ss p = some p' ∧
      (p'.errorNumber = 0 ↔ p.errorNumber = 0 ∧ ¬ HasError ss) ∧
      (Published ss p' ↔ p.errorNumber = 0 ∨ HasError ss) := by
  have hready : Ready { p with parsetreeroot := none } [] none := rfl
  obtain ⟨p', hp', hcount, hroot⟩ := stmtList_defined (Or.inr hready) hd
  have hzero : p'.errorNumber = 0 ↔ p.errorNumber = 0 ∧ ¬ HasError ss := by
    rw [hcount, hasError_iff_filter]
    change p.errorNumber + _ = 0 ↔ _
    omega
  refine ⟨p', hp', hzero, ⟨fun hpub => ?_, fun hok => ?_⟩⟩
  · by_contra hnot
    have hnone := (hroot hne).mpr fun h => hnot (Or.inl (hzero.mp h).1)
    exact hnot (Or.inr (hpub.1.mp hnone))
  · refine ⟨(hroot hne).trans ?_, fun hgood => ?_⟩
    · rw [Ne, hzero]
      refine ⟨fun h => ?_, fun he h => h.2 he⟩
      by_contra hgood
      exact h ⟨hok.resolve_right hgood, hgood⟩
    · obtain ⟨l, hl, z, hseg, -⟩ := stmtList_chain hready (hok.resolve_right hgood) hgood
        (fun hnil => absurd hnil hne) hp'
      rw [hl]
      exact hseg.chain

theorem getparsetreeroot_undefined {ss : List (Statement α)} (hd : ¬ Defined none ss)
    (p : SqlParser α) : getparsetreeroot ss p = none := by
  match ss with
  | [] | .stmt _ :: _ | .error false :: _ => exact absurd trivial hd
  | .error true :: ss => exact stmtList_token hd

/-- Parses from a state with or without counted errors. -/
theorem execute_published {session : List (List (Statement α))} (hne : ∀ ss ∈ session, ss ≠ [])
    (p : SqlParser α) :
    (∃ states, execute session p = some states ∧ List.Forall₂ Published session states) ↔
      (∀ ss ∈ session, Defined none ss) ∧
        session.Pairwise (fun a b => HasError a → HasError b) ∧
        (p.errorNumber ≠ 0 → ∀ ss ∈ session, HasError ss) := by
  induction session generalizing p with
  | nil => simp [execute]
  | cons ss session ih =>
    by_cases hd : Defined none ss
    · obtain ⟨p', hp', hzero, hpub⟩ := getparsetreeroot_published (hne ss (by simp)) hd p
      have hrest := ih (fun s hs => hne s (by simp [hs])) p'
      have hsplit : (∃ states, execute (ss :: session) p = some states ∧
          List.Forall₂ Published (ss :: session) states) ↔ Published ss p' ∧
          ∃ states, execute session p' = some states ∧ List.Forall₂ Published session states := by
        rw [execute, hp', Option.bind_some]
        constructor
        · rintro ⟨states, hs, hall⟩
          obtain ⟨rest, hr, rfl⟩ := Option.map_eq_some_iff.mp hs
          rw [List.forall₂_cons] at hall
          exact ⟨hall.1, rest, hr, hall.2⟩
        · rintro ⟨hfirst, rest, hr, hall⟩
          exact ⟨p' :: rest, by rw [hr]; rfl, .cons hfirst hall⟩
      rw [hsplit, hrest, hpub, Ne, hzero]
      simp only [List.forall_mem_cons, List.pairwise_cons, hd, true_and]
      constructor
      · rintro ⟨hok, hdef, hpair, hlater⟩
        refine ⟨hdef, ⟨fun s hs he => hlater (fun h => h.2 he) s hs, hpair⟩, fun h0 => ?_⟩
        exact ⟨hok.resolve_left h0, hlater fun h => h0 h.1⟩
      · rintro ⟨hdef, ⟨hafter, hpair⟩, hstart⟩
        refine ⟨?_, hdef, hpair, fun h s hs => ?_⟩
        · by_cases h0 : p.errorNumber = 0
          · exact Or.inl h0
          · exact Or.inr (hstart h0).1
        · by_cases he : HasError ss
          · exact hafter s hs he
          · exact (hstart fun h0 => h ⟨h0, he⟩).2 s hs
    · rw [execute, getparsetreeroot_undefined hd]
      simp [hd]

/-- In a session every parse publishes exactly its own statements if and only if no error-free
parse follows an erroneous one, and no well-formed statement follows a first one that was
reduced by `error ';'` with the value of a token. -/
theorem sessionPublished_iff {session : List (List (Statement α))} (hne : ∀ ss ∈ session, ss ≠ []) :
    SessionPublished session ↔ session.Pairwise (fun a b => HasError a → HasError b) ∧
      ∀ ss ∈ session, Defined none ss := by
  rw [SessionPublished, execute_published hne]
  simp [start, and_comm]

/-- Two parses of three statements. -/
theorem sessionPublished_two :
    SessionPublished [[.stmt 1, .stmt 2], [.stmt 3, .error true, .stmt 4]] := by
  rw [sessionPublished_iff (by decide)]
  refine ⟨?_, ?_⟩
  · simp [HasError, Statement.isError]
  · simp [Defined]

/-- A well-formed statement after an erroneous parse: its root is null. -/
theorem sessionPublished_after_error_fails :
    ¬ SessionPublished [[.error false], [.stmt 1]] := by
  rw [SessionPublished, execute_published (by decide)]
  simp [HasError, Statement.isError]

end SqlParser
end Mosito
