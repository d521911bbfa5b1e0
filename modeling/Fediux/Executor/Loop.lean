import Fediux.Executor.Evaluate

set_option autoImplicit false

/-! # The token loop

Facts about `evaluate` for any evaluator: the heights of its stacks, an invariant of the
values, and the simulation of one evaluator by another.
-/

namespace Fediux.Express

open OrderedMap (Entries find? assign)
open Postfix (height)
open Fallible (bind_eq_ok)

variable {ρ ρ' ν τ : Type}

/-! ## One token -/

/-- What a successful pass of the loop has done. -/
theorem evalToken_cases {e : Evaluator ρ ν} {s s' : Loop ν × ρ} {token : Str}
    (h : evalToken e s token = .ok s') :
    (∃ v, opOf token = none ∧ e.createTokenValue token = .ok v ∧
      s' = (s.1.AfterMPCRun token v, s.2)) ∨
    (∃ op a b stk1 x y valStk z r newToken, opOf token = some op ∧
      s.1.stk1 = b :: a :: stk1 ∧ s.1.valStk = y :: x :: valStk ∧
      e.apply s.2 op x y = .ok (z, r) ∧ newToken = '(' :: (a ++ token ++ b ++ [')']) ∧
      s' = ({ s.1 with stk1 := stk1, valStk := valStk }.AfterMPCRun newToken z, r)) := by
  unfold evalToken at h
  cases hop : opOf token with
  | none =>
      rw [hop] at h
      obtain ⟨v, hv, h⟩ := bind_eq_ok.mp h
      cases h
      exact Or.inl ⟨v, rfl, hv, rfl⟩
  | some op =>
      rw [hop] at h
      -- an operator: the three stages of the pass have succeeded one after the other
      obtain ⟨⟨⟨a, x⟩, ⟨b, y⟩, l⟩, hbefore, h⟩ := bind_eq_ok.mp h
      obtain ⟨⟨z, r⟩, happly, h⟩ := bind_eq_ok.mp h
      cases h
      unfold Loop.BeforeMPCRun at hbefore
      split at hbefore
      · next hstk hval =>
          cases hbefore
          exact Or.inr ⟨op, a, b, _, x, y, _, z, r, _, rfl, hstk, hval, happly, rfl, rfl⟩
      · cases hbefore

theorem evalToken_operand {e : Evaluator ρ ν} {s : Loop ν × ρ} {token : Str} {v : ν}
    (hop : opOf token = none) (hv : e.createTokenValue token = .ok v) :
    evalToken e s token = .ok (s.1.AfterMPCRun token v, s.2) := by
  rw [evalToken, hop, hv]
  rfl

theorem evalToken_operator {e : Evaluator ρ ν} {l : Loop ν} {r r' : ρ} {token : Str} {op : Op}
    {a b : Str} {stk1 : List Str} {x y z : ν} {valStk : List ν} (hop : opOf token = some op)
    (hstk : l.stk1 = b :: a :: stk1) (hval : l.valStk = y :: x :: valStk)
    (happly : e.apply r op x y = .ok (z, r')) :
    evalToken e (l, r) token = .ok ({ l with stk1 := stk1, valStk := valStk }.AfterMPCRun
      ('(' :: (a ++ token ++ b ++ [')'])) z, r') := by
  obtain ⟨stk, vals, m⟩ := l
  cases hstk
  cases hval
  rw [evalToken, hop]
  show (e.apply r op x y >>= _) = _
  rw [happly]
  rfl

/-! ## An invariant of the values -/

/-- The names and the values go in step, and the names on the stack have their values in
`token_val_map_`; all these values satisfy `P`. -/
structure Loop.Inv (P : ν → Prop) (l : Loop ν) : Prop where
  length_eq : l.stk1.length = l.valStk.length
  vals : ∀ v ∈ l.valStk, P v
  found : ∀ name ∈ l.stk1, ∃ v, find? l.tokenValMap name = some v ∧ P v

theorem Loop.Inv.new (P : ν → Prop) : (Loop.new : Loop ν).Inv P :=
  ⟨rfl, fun _ h => (List.not_mem_nil h).elim, fun _ h => (List.not_mem_nil h).elim⟩

theorem Loop.Inv.after {P : ν → Prop} {l : Loop ν} (h : l.Inv P) (name : Str) {v : ν}
    (hv : P v) : (l.AfterMPCRun name v).Inv P := by
  refine ⟨congrArg (· + 1) h.length_eq, ?_, ?_⟩
  · intro w hw
    rcases List.mem_cons.mp hw with rfl | hw
    · exact hv
    · exact h.vals w hw
  · intro k hk
    show ∃ w, find? (assign l.tokenValMap name v) k = some w ∧ P w
    rw [OrderedMap.find?_assign]
    by_cases hkn : k = name
    · exact ⟨v, if_pos hkn, hv⟩
    · rw [if_neg hkn]
      exact h.found k ((List.mem_cons.mp hk).resolve_left hkn)

theorem Loop.Inv.two_names {P : ν → Prop} {l : Loop ν} (h : l.Inv P) {x y : ν}
    {valStk : List ν} (hval : l.valStk = y :: x :: valStk) :
    ∃ b a stk1, l.stk1 = b :: a :: stk1 := by
  have hlen := h.length_eq
  rw [hval] at hlen
  rcases hstk : l.stk1 with _ | ⟨b, _ | ⟨a, stk1⟩⟩ <;> rw [hstk] at hlen
  · cases hlen
  · cases hlen
  · exact ⟨b, a, stk1, rfl⟩

theorem Loop.Inv.before {P : ν → Prop} {l : Loop ν} (h : l.Inv P) {a b : Str}
    {stk1 : List Str} {x y : ν} {valStk : List ν} (hstk : l.stk1 = b :: a :: stk1)
    (hval : l.valStk = y :: x :: valStk) :
    { l with stk1 := stk1, valStk := valStk }.Inv P ∧ P x ∧ P y := by
  have hlen := h.length_eq
  have hvals := h.vals
  have hfound := h.found
  rw [hval] at hvals
  rw [hstk] at hfound
  rw [hstk, hval] at hlen
  refine ⟨⟨?_, ?_, ?_⟩, hvals x (by simp), hvals y (by simp)⟩
  · simpa using hlen
  · intro v hv
    exact hvals v (by simp [hv])
  · intro k hk
    exact hfound k (by simp [hk])

theorem evalToken_inv {e : Evaluator ρ ν} {P : ν → Prop} {s s' : Loop ν × ρ} {token : Str}
    (hcreate : ∀ v, opOf token = none → e.createTokenValue token = .ok v → P v)
    (happly : ∀ r op x y z r', opOf token = some op → P x → P y →
      e.apply r op x y = .ok (z, r') → P z)
    (hs : s.1.Inv P) (h : evalToken e s token = .ok s') : s'.1.Inv P := by
  rcases evalToken_cases h with ⟨v, hop, hv, rfl⟩ |
    ⟨op, a, b, stk1, x, y, valStk, z, r, name, hop, hstk, hval, hz, _, rfl⟩
  · exact hs.after token (hcreate v hop hv)
  · obtain ⟨hl, hx, hy⟩ := hs.before hstk hval
    exact hl.after name (happly s.2 op x y z r hop hx hy hz)

/-- The values a run meets satisfy what operands satisfy and operators preserve. -/
theorem evaluate_inv {e : Evaluator ρ ν} {P : ν → Prop} {s s' : Loop ν × ρ} {toks : List Str}
    (hcreate : ∀ token ∈ toks, ∀ v, opOf token = none → e.createTokenValue token = .ok v → P v)
    (happly : ∀ token ∈ toks, ∀ r op x y z r', opOf token = some op → P x → P y →
      e.apply r op x y = .ok (z, r') → P z)
    (hs : s.1.Inv P) (h : evaluate e s toks = .ok s') : s'.1.Inv P :=
  Fallible.foldlM_invariant (fun s => s.1.Inv P)
    (fun token ht _ _ hs h => evalToken_inv (hcreate token ht) (happly token ht) hs h) hs h

/-! ## Heights -/

/-- A pass of the loop changes the height of the value stack as the token says. -/
theorem evalToken_height {e : Evaluator ρ ν} {s s' : Loop ν × ρ} {token : Str}
    (h : evalToken e s token = .ok s') (w : List Str) :
    height ((token :: w).map symOf) s.1.valStk.length =
      height (w.map symOf) s'.1.valStk.length := by
  rcases evalToken_cases h with ⟨v, hop, _, rfl⟩ |
    ⟨op, a, b, stk1, x, y, valStk, z, r, name, hop, _, hval, _, _, rfl⟩
  · rw [List.map_cons, symOf, hop]
    rfl
  · rw [List.map_cons, symOf, hop, hval]
    rfl

/-- A run that succeeds leaves a stack of the height that the tokens say. -/
theorem evaluate_height {e : Evaluator ρ ν} {s s' : Loop ν × ρ} {toks : List Str}
    (h : evaluate e s toks = .ok s') :
    height (toks.map symOf) s.1.valStk.length = some s'.1.valStk.length := by
  induction toks generalizing s with
  | nil =>
      cases h
      rfl
  | cons token toks ih =>
      obtain ⟨s₁, h₁, h⟩ := Fallible.foldlM_cons_eq_ok.mp h
      rw [evalToken_height h₁, ih h]

/-- A run succeeds where the tokens do not underflow the stack and every operand and operator
succeeds on the values of the invariant. -/
theorem evaluate_succeeds {e : Evaluator ρ ν} {P : ν → Prop} {toks : List Str}
    (hcreate : ∀ token ∈ toks, opOf token = none → ∃ v, e.createTokenValue token = .ok v ∧ P v)
    (happly : ∀ token ∈ toks, ∀ r op x y, opOf token = some op → P x → P y →
      ∃ z r', e.apply r op x y = .ok (z, r') ∧ P z)
    {s : Loop ν × ρ} {m : Nat} (hs : s.1.Inv P)
    (hm : height (toks.map symOf) s.1.valStk.length = some m) :
    ∃ s', evaluate e s toks = .ok s' ∧ s'.1.Inv P := by
  induction toks generalizing s with
  | nil => exact ⟨s, rfl, hs⟩
  | cons token toks ih =>
      have hstep : ∃ s₁, evalToken e s token = .ok s₁ ∧ s₁.1.Inv P := by
        cases hop : opOf token with
        | none =>
            obtain ⟨v, hv, hP⟩ := hcreate token List.mem_cons_self hop
            exact ⟨_, evalToken_operand hop hv, hs.after token hP⟩
        | some op =>
            obtain ⟨⟨stk1, valStk, map⟩, r⟩ := s
            rw [List.map_cons, symOf, hop] at hm
            -- the height counts values; by the invariant there are as many names
            rcases valStk with _ | ⟨y, _ | ⟨x, valStk⟩⟩
            · cases hm
            · cases hm
            · obtain ⟨b, a, stk1, rfl⟩ := hs.two_names rfl
              obtain ⟨hl, hx, hy⟩ := hs.before rfl rfl
              obtain ⟨z, r', hz, hP⟩ := happly token List.mem_cons_self r op x y hop hx hy
              exact ⟨_, evalToken_operator hop rfl rfl hz, hl.after _ hP⟩
      obtain ⟨s₁, h₁, hs₁⟩ := hstep
      rw [evalToken_height h₁] at hm
      obtain ⟨s', h', hs'⟩ := ih (fun t ht => hcreate t (List.mem_cons_of_mem token ht))
        (fun t ht => happly t (List.mem_cons_of_mem token ht)) hs₁ hm
      exact ⟨s', Fallible.foldlM_cons_eq_ok.mpr ⟨s₁, h₁, h'⟩, hs'⟩

/-! ## Simulation -/

/-- Two loops at the same token: the same names, and related values. -/
structure Loop.Rel (R : ν → τ → Prop) (l : Loop ν) (l' : Loop τ) : Prop where
  stk1 : l.stk1 = l'.stk1
  valStk : List.Forall₂ R l.valStk l'.valStk
  map : ∀ k, Option.Rel R (find? l.tokenValMap k) (find? l'.tokenValMap k)

theorem Loop.Rel.new (R : ν → τ → Prop) : Loop.Rel R .new .new :=
  ⟨rfl, .nil, fun _ => .none⟩

theorem Loop.Rel.after {R : ν → τ → Prop} {l : Loop ν} {l' : Loop τ} (h : l.Rel R l')
    (name : Str) {v : ν} {w : τ} (hvw : R v w) :
    (l.AfterMPCRun name v).Rel R (l'.AfterMPCRun name w) := by
  refine ⟨congrArg (name :: ·) h.stk1, .cons hvw h.valStk, fun k => ?_⟩
  show Option.Rel R (find? (assign _ _ _) k) (find? (assign _ _ _) k)
  rw [OrderedMap.find?_assign, OrderedMap.find?_assign]
  split
  · exact .some hvw
  · exact h.map k

theorem Loop.Rel.before {R : ν → τ → Prop} {l : Loop ν} {l' : Loop τ} (h : l.Rel R l')
    {a b : Str} {stk1 : List Str} {x y : ν} {valStk : List ν}
    (hstk : l.stk1 = b :: a :: stk1) (hval : l.valStk = y :: x :: valStk) :
    ∃ x' y' valStk', l'.stk1 = b :: a :: stk1 ∧ l'.valStk = y' :: x' :: valStk' ∧ R x x' ∧
      R y y' ∧ { l with stk1 := stk1, valStk := valStk }.Rel R
        { l' with stk1 := stk1, valStk := valStk' } := by
  have hvals := h.valStk
  rw [hval] at hvals
  obtain ⟨y', vals, hy, htail, heq⟩ := List.forall₂_cons_left_iff.mp hvals
  obtain ⟨x', vals', hx, hvals, rfl⟩ := List.forall₂_cons_left_iff.mp htail
  exact ⟨x', y', vals', h.stk1 ▸ hstk, heq, hx, hy, rfl, hvals, h.map⟩

/-- A run is simulated where its operands and operators are. -/
theorem evaluate_simulates {e : Evaluator ρ ν} {e' : Evaluator ρ' τ} {R : ν → τ → Prop}
    {toks : List Str}
    (hcreate : ∀ token ∈ toks, opOf token = none → ∀ v, e.createTokenValue token = .ok v →
      ∃ w, e'.createTokenValue token = .ok w ∧ R v w)
    (happly : ∀ r op x y z r₁ x' y' r', e.apply r op x y = .ok (z, r₁) → R x x' → R y y' →
      ∃ z' r₁', e'.apply r' op x' y' = .ok (z', r₁') ∧ R z z')
    {s s₁ : Loop ν × ρ} {s' : Loop τ × ρ'} (hs : s.1.Rel R s'.1)
    (h : evaluate e s toks = .ok s₁) :
    ∃ s₁', evaluate e' s' toks = .ok s₁' ∧ s₁.1.Rel R s₁'.1 := by
  refine Fallible.foldlM_simulates (fun (s : Loop ν × ρ) (s' : Loop τ × ρ') => s.1.Rel R s'.1)
    ?_ hs h
  intro token htoken s s₁ s' hs h
  rcases evalToken_cases h with ⟨v, hop, hv, rfl⟩ |
    ⟨op, a, b, stk1, x, y, valStk, z, r, name, hop, hstk, hval, hz, rfl, rfl⟩
  · obtain ⟨w, hw, hvw⟩ := hcreate token htoken hop v hv
    exact ⟨_, evalToken_operand hop hw, hs.after token hvw⟩
  · obtain ⟨x', y', valStk', hstk', hval', hx, hy, hl⟩ := hs.before hstk hval
    obtain ⟨z', r', hz', hzz⟩ := happly s.2 op x y z r x' y' s'.2 hz hx hy
    exact ⟨_, evalToken_operator hop hstk' hval' hz', hl.after _ hzz⟩

/-! ## The final value -/

theorem Loop.Inv.finalValue {P : ν → Prop} {l : Loop ν} (h : l.Inv P) (hne : l.stk1 ≠ []) :
    ∃ v rest, l.finalValue = .ok (v, rest) ∧ P v := by
  have hrev : l.stk1.reverse ≠ [] := by simpa using hne
  obtain ⟨name, rest, heq⟩ := List.exists_cons_of_ne_nil hrev
  have hmem : name ∈ l.stk1 := List.mem_reverse.mp (heq ▸ List.mem_cons_self)
  obtain ⟨v, hv, hP⟩ := h.found name hmem
  refine ⟨v, rest, ?_, hP⟩
  unfold Loop.finalValue
  simp only [heq, hv]

theorem Loop.Rel.finalValue {R : ν → τ → Prop} {l : Loop ν} {l' : Loop τ} (h : l.Rel R l')
    {v : ν} {rest : List Str} (hv : l.finalValue = .ok (v, rest)) :
    ∃ w, l'.finalValue = .ok (w, rest) ∧ R v w := by
  unfold Loop.finalValue at hv ⊢
  rw [← h.stk1]
  cases hrev : l.stk1.reverse with
  | nil =>
      rw [hrev] at hv
      cases hv
  | cons name rest' =>
      rw [hrev] at hv
      have hmap := h.map name
      cases hl : find? l.tokenValMap name with
      | none =>
          simp only [hl] at hv
          cases hv
      | some v' =>
          simp only [hl] at hv
          cases hv
          rw [hl] at hmap
          cases hl' : find? l'.tokenValMap name with
          | none =>
              rw [hl'] at hmap
              cases hmap
          | some w =>
              rw [hl'] at hmap
              cases hmap with
              | some hvw => exact ⟨w, by simp only [hl'], hvw⟩

/-- Where the last token is an operator and one name is left, the final value is its result. -/
theorem finalValue_of_operator {e : Evaluator ρ ν} {Q : ν → Prop} {s s' : Loop ν × ρ}
    {toks : List Str} {token : Str} {op : Op} (hop : opOf token = some op)
    (hQ : ∀ r x y z r', e.apply r op x y = .ok (z, r') → Q z)
    (h : evaluate e s (toks ++ [token]) = .ok s') (hlen : s'.1.stk1.length = 1) {v : ν}
    {rest : List Str} (hv : s'.1.finalValue = .ok (v, rest)) : Q v ∧ rest = [] := by
  rw [evaluate, List.foldlM_append] at h
  obtain ⟨s₁, _, h⟩ := bind_eq_ok.mp h
  obtain ⟨s₂, h, h'⟩ := Fallible.foldlM_cons_eq_ok.mp h
  cases h'
  rcases evalToken_cases h with ⟨_, hnone, _, _⟩ |
    ⟨op', a, b, stk1, x, y, valStk, z, r, name, hop', _, _, hz, _, rfl⟩
  · rw [hop] at hnone
    cases hnone
  · have hnil : stk1 = [] := List.eq_nil_of_length_eq_zero (Nat.succ.inj hlen)
    subst hnil
    rw [hop] at hop'
    cases hop'
    -- the only name left is the one the last operator has made
    have hfind : find? (assign s₁.1.tokenValMap name z) name = some z := by
      rw [OrderedMap.find?_assign, if_pos rfl]
    simp only [Loop.finalValue, Loop.AfterMPCRun, List.reverse_singleton, hfind] at hv
    cases hv
    exact ⟨hQ s₁.2 x y v r hz, rfl⟩

end Fediux.Express
