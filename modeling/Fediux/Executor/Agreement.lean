import Fediux.Executor.Grammar
import Fediux.Executor.Simulation

set_option autoImplicit false

/-! # Revealed values and local values

When does a task reveal the values that `LocalExpressExecutor` computes? `Runnable` is the
answer for the expressions `importExpress` accepts (`revealsLocal_iff`). It leaves out
constants, for which `getColumnDtype` throws where `resolveRunMode` expects a return code,
single columns, whose final value is no share, tokens that underflow the value stack, and
parties whose 32-bit row count is not the number of rows, among them every party without a
column: its count is `(uint32_t)-1`.
-/

namespace Fediux.Express

open OrderedMap (Entries)
open Postfix (height)
open Replicated (Party Share Shares)
open Fallible (bind_eq_ok)

/-! ## The property and the condition -/

/-- The task ends with a secret share and reveals, to every party once for each time it is
listed, the rows that the local evaluator computes for the same expression. -/
def RevealsLocal (sh3 : Sh3) (r : sh3.Runtime) (t : Table) (expr : Str)
    (parties : List Party) : Prop :=
  ∃ o, runMPC sh3 r t expr parties = .ok o ∧ (∀ p, ∃ m, o.final p = .shI64 m) ∧
    ∀ p, ∃ vs, runLocal t (o.exs p) = .ok vs ∧
      o.valVec p = (List.replicate (parties.count p) vs).flatten

/-- The tokens are a postfix word with an operator over columns of the table, and every party
counts the rows of the table. -/
structure Runnable (t : Table) (suffixStk : List Str) : Prop where
  height : height (suffixStk.map symOf) 0 = some 1
  operator : ∃ token ∈ suffixStk, isOperatorStr token = true
  columns : ∀ token ∈ suffixStk, isOperatorStr token = false → ∃ c ∈ t.columns, c.name = token
  counts : ∀ p, if ∃ c ∈ t.columns, c.owner = p then t.rows < 2 ^ 32 else t.rows = 2 ^ 32 - 1

/-! ## Tokens -/

theorem opOf_eq_none_iff (token : Str) : opOf token = none ↔ isOperatorStr token = false := by
  rw [← Bool.not_eq_true, isOperatorStr_iff]
  constructor
  · rintro h ⟨o, rfl⟩
    cases o <;> cases h
  · intro h
    cases hop : opOf token with
    | none => rfl
    | some o => exact absurd ⟨o, opOf_eq_some hop⟩ h

theorem opOf_ne_div {suffixStk : List Str} (hdiv : ['/'] ∉ suffixStk) {token : Str}
    (hmem : token ∈ suffixStk) : opOf token ≠ some .div := by
  intro h
  exact hdiv (opOf_eq_some h ▸ hmem)

/-- The height of the stack counts operands and operators. -/
theorem height_count {toks : List Str} {n k : Nat} (h : height (toks.map symOf) n = some k) :
    k + 2 * toks.countP isOperatorStr = n + toks.length := by
  induction toks generalizing n with
  | nil =>
      cases h
      rfl
  | cons token toks ih =>
      rw [List.countP_cons, List.length_cons]
      cases hop : opOf token with
      | none =>
          rw [List.map_cons, symOf, hop] at h
          have := ih h
          rw [(opOf_eq_none_iff token).mp hop, if_neg Bool.false_ne_true]
          omega
      | some op =>
          rw [List.map_cons, symOf, hop] at h
          rw [if_pos ((isOperatorStr_iff token).mpr ⟨op, opOf_eq_some hop⟩)]
          rcases n with _ | _ | n
          · cases h
          · cases h
          · have := ih h
            omega

/-- Accepted tokens that do not underflow leave one value, although `num_op` is a 16-bit
count. -/
theorem height_of_accepted {toks : List Str} {k : Nat} (hcheck : checkExpress toks = true)
    (h : height (toks.map symOf) 0 = some k) : k = 1 := by
  have hcount := ((checkExpress_iff toks).mp hcheck).2
  have hk := height_count h
  -- a multiple of `2 ^ 16` that the count has lost would make `k` negative
  have hle : numOp toks ≤ toks.countP isOperatorStr := Nat.mod_le _ _
  omega

/-- A postfix word with an operator ends in one. -/
theorem exists_last_operator {toks : List Str} (h : height (toks.map symOf) 0 = some 1)
    (hop : ∃ token ∈ toks, isOperatorStr token = true) :
    ∃ init token op, toks = init ++ [token] ∧ opOf token = some op := by
  obtain ⟨tree, htree⟩ := (Postfix.height_eq_one_iff _).mp h
  cases tree with
  | leaf x =>
      obtain ⟨token, hmem, htoken⟩ := hop
      have hval : symOf token = .val x := by
        have := List.mem_map_of_mem (f := symOf) hmem
        rw [← htree] at this
        exact List.mem_singleton.mp this
      have hnone : opOf token = none := by
        unfold symOf at hval
        split at hval
        · cases hval
        · assumption
      rw [(opOf_eq_none_iff token).mp hnone] at htoken
      cases htoken
  | node o l r =>
      obtain ⟨init, last, rfl, _, hlast⟩ := List.map_eq_append_iff.mp htree.symm
      obtain ⟨token, rfl, htoken⟩ := List.map_eq_singleton_iff.mp hlast
      refine ⟨init, token, o, rfl, ?_⟩
      unfold symOf at htoken
      split at htoken
      · cases htoken
        assumption
      · cases htoken

/-! ## Row counts -/

theorem ownedBy_eq_nil_iff (t : Table) (p : Party) :
    t.ownedBy p = [] ↔ ¬ ∃ c ∈ t.columns, c.owner = p := by
  simp [Table.ownedBy]

/-- The parties count the rows of the table exactly under the condition of `Runnable`. -/
theorem counts_iff (t : Table) :
    (∀ p, (feedDict t p).getColumnValuesCount = t.rows) ↔
      ∀ p, if ∃ c ∈ t.columns, c.owner = p then t.rows < 2 ^ 32 else t.rows = 2 ^ 32 - 1 := by
  refine forall_congr' fun p => ?_
  rw [getColumnValuesCount_feedDict]
  by_cases hp : ∃ c ∈ t.columns, c.owner = p
  · rw [if_pos hp, if_neg (fun h => (ownedBy_eq_nil_iff t p).mp h hp)]
    exact Nat.mod_eq_iff_lt (by norm_num)
  · rw [if_neg hp, if_pos ((ownedBy_eq_nil_iff t p).mpr hp)]
    exact eq_comm

/-! ## Runnable tasks reveal the local values -/

/-- The value of a local run: a vector with the rows of the table. -/
def IsVector (n : Nat) (x : TokenValue) : Prop := ∃ xs, x = .i64Vec xs ∧ xs.length = n

theorem local_apply_vectors {ex : Executor} {newFeed : FeedDict} {n : Nat} {op : Op}
    {x y : TokenValue} (hop : op ≠ .div) (hx : IsVector n x) (hy : IsVector n y) (u : Unit) :
    ∃ z u', (localEvaluator ex newFeed).apply u op x y = .ok (z, u') ∧ IsVector n z := by
  obtain ⟨xs, rfl, hxs⟩ := hx
  obtain ⟨ys, rfl, hys⟩ := hy
  have hvec : ∀ f g h : I64 → I64 → I64, ∃ z u',
      (do return (← localI64 f g h (.i64Vec xs) (.i64Vec ys), u) :
        Except Fault (TokenValue × Unit)) = .ok (z, u') ∧ IsVector n z := by
    intro f g h
    refine ⟨.i64Vec (List.zipWith f xs ys), u, ?_, _, rfl, ?_⟩
    · rw [localI64_vecs f g h (by omega)]
      rfl
    · rw [List.length_zipWith]
      omega
  cases op with
  | add => exact hvec _ _ _
  | sub => exact hvec _ _ _
  | mul => exact hvec _ _ _
  | div => exact absurd rfl hop

section Task

variable {t : Table} {m : Import} {tms : Party → Entries Str TokenType}

/-- The local run of a runnable task at any party succeeds with a vector. -/
theorem local_evaluate_runnable (honly : ∀ p, OnlyColumns (tms p))
    (hdiv : ['/'] ∉ m.suffixStk) (hrun : Runnable t m.suffixStk) (p : Party) :
    ∃ s, evaluate (localEvaluator (executor t m (tms p) p) (localFeed t p)) (.new, ())
      m.suffixStk = .ok s ∧ s.1.Inv (IsVector t.rows) := by
  refine evaluate_succeeds ?_ ?_ (Loop.Inv.new _) hrun.height
  · intro token htoken hop
    obtain ⟨c, hc⟩ := Option.isSome_iff_exists.mp ((t.column?_isSome_iff token).mpr
      (hrun.columns token htoken ((opOf_eq_none_iff token).mp hop)))
    exact ⟨_, localTokenValue_column (honly p) hc p, _, rfl,
      t.length_eq c (Table.column?_some hc).1⟩
  · intro token htoken u op x y hop hx hy
    exact local_apply_vectors (fun h => opOf_ne_div hdiv htoken (h ▸ hop)) hx hy u

/-- The secure run of a runnable task follows the local run of any party. -/
theorem mpc_evaluate_runnable (sh3 : Sh3) (r : sh3.Runtime) (honly : ∀ p, OnlyColumns (tms p))
    (hrun : Runnable t m.suffixStk) (p : Party) {s : Loop TokenValue × Unit}
    (hs : evaluate (localEvaluator (executor t m (tms p) p) (localFeed t p)) (.new, ())
      m.suffixStk = .ok s) :
    ∃ s', evaluate (mpcEvaluator sh3 fun p => executor t m (tms p) p) (.new, r) m.suffixStk =
      .ok s' ∧ s.1.Rel (Represents t.rows) s'.1 := by
  refine evaluate_simulates ?_ ?_ (Loop.Rel.new _) hs
  · intro token htoken hop x hx
    obtain ⟨c, hc⟩ := Option.isSome_iff_exists.mp ((t.column?_isSome_iff token).mpr
      (hrun.columns token htoken ((opOf_eq_none_iff token).mp hop)))
    have hx' : (localEvaluator (executor t m (tms p) p) (localFeed t p)).createTokenValue token =
        .ok (.i64Vec c.values) := localTokenValue_column (honly p) hc p
    rw [hx'] at hx
    cases hx
    obtain ⟨v, hv, hcol⟩ := mpc_createTokenValue sh3 m honly hc
    exact ⟨v, hv, .column hcol⟩
  · intro u op x y z u₁ x' y' r hz hx hy
    exact apply_represents ((counts_iff t).mpr hrun.counts) r hz hx hy

end Task

/-- The parties hold shares of the value. -/
def IsShare (v : Party → TokenValue) : Prop := ∀ p, ∃ m, v p = .shI64 m

/-- A successful operator has loaded both operands and run its tail. -/
theorem exists_tail_of_apply {sh3 : Sh3} {exs : Party → Executor} {r r' : sh3.Runtime} {op : Op}
    {x y z : Party → TokenValue} (h : (mpcEvaluator sh3 exs).apply r op x y = .ok (z, r')) :
    ∃ tail, runMPCI64 sh3 (fun p => (exs p).feedDict.getColumnValuesCount) tail r x y =
      .ok (z, r') := by
  cases op with
  | add =>
      change runMPCAddI64 _ _ r x y = _ at h
      rw [runMPCAddI64] at h
      exact ⟨_, h⟩
  | sub =>
      change runMPCSubI64 _ _ r x y = _ at h
      rw [runMPCSubI64] at h
      exact ⟨_, h⟩
  | mul =>
      change runMPCMulI64 _ _ r x y = _ at h
      rw [runMPCMulI64] at h
      exact ⟨_, h⟩
  | div => cases h

/-- Every operator of the secure evaluator ends in shares. -/
theorem apply_isShare {sh3 : Sh3} {exs : Party → Executor} {r r' : sh3.Runtime} {op : Op}
    {x y z : Party → TokenValue} (h : (mpcEvaluator sh3 exs).apply r op x y = .ok (z, r')) :
    IsShare z := by
  obtain ⟨tail, h⟩ := exists_tail_of_apply h
  obtain ⟨_, _, h⟩ := bind_eq_ok.mp h
  obtain ⟨_, _, h⟩ := bind_eq_ok.mp h
  obtain ⟨m, _, h⟩ := bind_eq_ok.mp h
  cases h
  exact fun p => ⟨m.1 p, rfl⟩

theorem parseExpress_of_import {expr : Str} {code : Int} {m : Import}
    (h : importExpress .new expr = some (code, m)) : parseExpress [] expr = some m.suffixStk := by
  obtain ⟨s, hs, he⟩ := Option.map_eq_some_iff.mp h
  have hm : m.suffixStk = s := by
    split at he <;> cases he <;> rfl
  rw [hm]
  exact hs

theorem accepted_of_import {expr : Str} {m : Import}
    (h : importExpress .new expr = some (0, m)) :
    checkExpress m.suffixStk = true ∧ m.expr = expr := by
  obtain ⟨s, _, he⟩ := Option.map_eq_some_iff.mp h
  split at he
  · next hc =>
      cases he
      exact ⟨hc, rfl⟩
  · cases he

theorem runMPCEvaluate_executor (sh3 : Sh3) (r : sh3.Runtime) (t : Table) (m : Import)
    (tms : Party → Entries Str TokenType) :
    runMPCEvaluate sh3 (fun p => executor t m (tms p) p) r =
      evaluate (mpcEvaluator sh3 fun p => executor t m (tms p) p) (.new, r) m.suffixStk :=
  if_pos fun _ => rfl

/-- Shares stand for one vector. -/
theorem Represents.shares {n : Nat} {x : TokenValue} {mats : Party → Si64Matrix}
    (h : Represents n x fun p => .shI64 (mats p)) : ∃ xs, x = .i64Vec xs ∧ Shares mats xs := by
  generalize hv : (fun p => TokenValue.shI64 (mats p)) = v at h
  cases h with
  | column hcol =>
      obtain ⟨_, p, hp, _⟩ := hcol
      rw [← hv] at hp
      cases hp
  | const c => cases congrFun hv 0
  | @share m xs h _ =>
      have hm : mats = m := funext fun p => TokenValue.shI64.inj (congrFun hv p)
      exact ⟨xs, rfl, hm ▸ h⟩

theorem IsShare.exists_mats {v : Party → TokenValue} (h : IsShare v) :
    ∃ mats : Party → Si64Matrix, v = fun p => .shI64 (mats p) := by
  choose mats hmats using h
  exact ⟨mats, funext hmats⟩

/-- The local run at a party whose token stack is empty, as it is after the reveal. -/
theorem runLocal_executor {t : Table} {expr : Str} {m : Import} (tm : Entries Str TokenType)
    (himport : importExpress .new expr = some (0, m)) (p : Party) :
    runLocal t { executor t m tm p with suffixStk := [] } = (do
      let (l, _) ← evaluate (localEvaluator (executor t m tm p) (localFeed t p)) (.new, ())
        m.suffixStk
      let (finalVal, _) ← l.finalValue
      finalVal.i64VecM) := by
  have hparse := parseExpress_of_import himport
  rw [← (accepted_of_import himport).2] at hparse
  have hfeed := importValues_localFeed t p
  unfold runLocal
  simp only [executor, hfeed, hparse]
  rfl

/-- A runnable task reveals the local values. -/
theorem revealsLocal_of_runnable {sh3 : Sh3} (r : sh3.Runtime) {t : Table} {expr : Str}
    (parties : List Party) {m : Import} (himport : importExpress .new expr = some (0, m))
    (hdiv : ['/'] ∉ m.suffixStk) (hrun : Runnable t m.suffixStk) :
    RevealsLocal sh3 r t expr parties := by
  have hcols : ∀ token ∈ m.suffixStk, isOperatorStr token = false →
      (t.column? token).isSome = true := fun token h hop =>
    (t.column?_isSome_iff token).mpr (hrun.columns token h hop)
  choose tms hsetup honly using setup_ok himport hdiv hcols
  obtain ⟨s, hs, hinv⟩ := local_evaluate_runnable honly hdiv hrun 0
  obtain ⟨⟨l, r₁⟩, hmpc, hrel⟩ := mpc_evaluate_runnable sh3 r honly hrun 0 hs
  -- one value is left, and an operator has computed it
  have hone : l.stk1.length = 1 := by
    have hheight := evaluate_height hs
    have hval : height (m.suffixStk.map symOf) 0 = some s.1.valStk.length := hheight
    rw [hrun.height] at hval
    have hlen := hinv.length_eq
    rw [← hrel.stk1, hlen]
    exact (Option.some.inj hval).symm
  have hne : s.1.stk1 ≠ [] := by
    intro h
    rw [← hrel.stk1, h] at hone
    cases hone
  obtain ⟨x, rest, hx, xs, rfl, _⟩ := hinv.finalValue hne
  obtain ⟨v, hv, hrep⟩ := hrel.finalValue hx
  obtain ⟨init, token, op, hlast, hop⟩ := exists_last_operator hrun.height hrun.operator
  have hfinal : IsShare v ∧ rest = [] := by
    rw [hlast] at hmpc
    exact finalValue_of_operator hop (fun _ _ _ _ _ h => apply_isShare h) hmpc hone hv
  obtain ⟨hshare, rfl⟩ := hfinal
  obtain ⟨mats, rfl⟩ := hshare.exists_mats
  obtain ⟨xs', hxs', hxs⟩ := hrep.shares
  cases hxs'
  obtain ⟨r₂, hreveal⟩ := revealMPCResult_shares parties hxs r₁
  refine ⟨⟨_, _, fun p => { executor t m (tms p) p with suffixStk := [] }⟩, ?_, hshare,
    fun p => ⟨xs, ?_, rfl⟩⟩
  · have hexs : atParties (setup t expr) = .ok (fun p => executor t m (tms p) p) :=
      atParties_eq_ok.mpr hsetup
    simp only [runMPC, hexs, runMPCEvaluate_executor, hmpc, hv, hreveal, bind, Except.bind]
    rfl
  · -- the local run of party `p`, which the same secure run follows
    obtain ⟨s', hs', hinv'⟩ := local_evaluate_runnable honly hdiv hrun p
    obtain ⟨sm, hmpc', hrel'⟩ := mpc_evaluate_runnable sh3 r honly hrun p hs'
    rw [hmpc] at hmpc'
    cases hmpc'
    have hne' : s'.1.stk1 ≠ [] := by
      intro h
      rw [← hrel'.stk1, h] at hone
      cases hone
    obtain ⟨x', rest', hx', xs', rfl, _⟩ := hinv'.finalValue hne'
    obtain ⟨v', hv', hrep'⟩ := hrel'.finalValue hx'
    rw [hv] at hv'
    cases hv'
    -- both local vectors open from the same shares
    obtain ⟨ys, hys, hshares⟩ := hrep'.shares
    cases hys
    have heq : xs' = xs :=
      (sh3.reveal_shares r 0 mats xs' hshares).symm.trans (sh3.reveal_shares r 0 mats xs hxs)
    rw [runLocal_executor (tms p) himport p, hs']
    show (do
      let (finalVal, _) ← s'.1.finalValue
      finalVal.i64VecM : Except Fault (List I64)) = _
    rw [hx', heq]
    rfl

/-! ## Tasks that reveal the local values are runnable -/

/-- No operator succeeds on columns where a party counts other rows than the table has. -/
theorem apply_columns_shape {sh3 : Sh3} {exs : Party → Executor} {n : Nat}
    (hrows : ∃ p, (exs p).feedDict.getColumnValuesCount ≠ n) {r r' : sh3.Runtime} {op : Op}
    {x y z : Party → TokenValue} {xs : List I64} (hx : IsColumn n x xs) :
    (mpcEvaluator sh3 exs).apply r op x y ≠ .ok (z, r') := by
  intro h
  obtain ⟨tail, h⟩ := exists_tail_of_apply h
  obtain ⟨_, hload, _⟩ := bind_eq_ok.mp h
  obtain ⟨f, hf⟩ := loadOperand_shape hrows r hx
  rw [hf] at hload
  cases hload

/-- Without an operator, or with a wrong row count at a party, a run that succeeds never
leaves the columns. -/
theorem evaluate_columns {sh3 : Sh3} {r : sh3.Runtime} {t : Table} {m : Import}
    {tms : Party → Entries Str TokenType} (honly : ∀ p, OnlyColumns (tms p))
    (hcols : ∀ token ∈ m.suffixStk, isOperatorStr token = false →
      (t.column? token).isSome = true)
    (hbad : (∀ token ∈ m.suffixStk, isOperatorStr token = false) ∨
      ∃ p, (feedDict t p).getColumnValuesCount ≠ t.rows)
    {s : Loop (Party → TokenValue) × sh3.Runtime}
    (h : evaluate (mpcEvaluator sh3 fun p => executor t m (tms p) p) (.new, r) m.suffixStk =
      .ok s) :
    s.1.Inv fun v => ∃ xs, IsColumn t.rows v xs := by
  refine evaluate_inv ?_ ?_ (Loop.Inv.new _) h
  · intro token htoken v hop hv
    obtain ⟨c, hc⟩ := Option.isSome_iff_exists.mp
      (hcols token htoken ((opOf_eq_none_iff token).mp hop))
    obtain ⟨v', hv', hcol⟩ := mpc_createTokenValue sh3 m honly hc
    rw [hv'] at hv
    cases hv
    exact ⟨_, hcol⟩
  · rintro token htoken r op x y z r' hop ⟨xs, hx⟩ _ hz
    rcases hbad with hnone | hrows
    · rw [(opOf_eq_none_iff token).mpr (hnone token htoken)] at hop
      cases hop
    · exact absurd hz (apply_columns_shape hrows hx)

/-- A task that reveals the local values is runnable. -/
theorem runnable_of_revealsLocal {sh3 : Sh3} {r : sh3.Runtime} {t : Table} {expr : Str}
    {parties : List Party} {m : Import} (himport : importExpress .new expr = some (0, m))
    (hdiv : ['/'] ∉ m.suffixStk) (h : RevealsLocal sh3 r t expr parties) :
    Runnable t m.suffixStk := by
  obtain ⟨o, ho, hfinal, _⟩ := h
  obtain ⟨exs, hexs, ho⟩ := bind_eq_ok.mp ho
  have hsetup := atParties_eq_ok.mp hexs
  -- the run mode was resolved, so the operands are columns
  have hcols := column_of_setup himport (hsetup 0)
  choose tms hsetup' honly using setup_ok himport hdiv hcols
  obtain rfl : exs = fun p => executor t m (tms p) p :=
    funext fun p => Except.ok.inj ((hsetup p).symm.trans (hsetup' p))
  rw [runMPCEvaluate_executor] at ho
  obtain ⟨s, hs, ho⟩ := bind_eq_ok.mp ho
  obtain ⟨⟨v, rest⟩, hv, ho⟩ := bind_eq_ok.mp ho
  obtain ⟨_, _, ho⟩ := bind_eq_ok.mp ho
  cases ho
  have hheight : height (m.suffixStk.map symOf) 0 = some s.1.valStk.length := evaluate_height hs
  have hone := height_of_accepted (accepted_of_import himport).1 hheight
  rw [hone] at hheight
  -- a final value that is a column contradicts the share
  have hgood : ¬ ((∀ token ∈ m.suffixStk, isOperatorStr token = false) ∨
      ∃ p, (feedDict t p).getColumnValuesCount ≠ t.rows) := by
    intro hbad
    have hinv := evaluate_columns honly hcols hbad hs
    have hne : s.1.stk1 ≠ [] := by
      intro hnil
      have := hinv.length_eq
      rw [hnil, hone] at this
      cases this
    obtain ⟨w, rest', hw, xs, _, p, hp, _⟩ := hinv.finalValue hne
    rw [hv] at hw
    cases hw
    obtain ⟨mat, hmat⟩ := hfinal p
    have hmat' : v p = .shI64 mat := hmat
    rw [hp] at hmat'
    cases hmat'
  obtain ⟨hop, hrows⟩ := not_or.mp hgood
  refine ⟨hheight, ?_, ?_, ?_⟩
  · by_contra hnone
    refine hop fun token htoken => ?_
    by_contra hne
    exact hnone ⟨token, htoken, by simpa using hne⟩
  · intro token htoken hnop
    exact (t.column?_isSome_iff token).mp (hcols token htoken hnop)
  · refine (counts_iff t).mp fun p => ?_
    by_contra hne
    exact hrows ⟨p, hne⟩

/-- **An accepted expression without division reveals the local values exactly for the
runnable tasks**, whatever the protocol engine does with its randomness. -/
theorem revealsLocal_iff (sh3 : Sh3) (r : sh3.Runtime) (t : Table) (expr : Str)
    (parties : List Party) (m : Import) (himport : importExpress .new expr = some (0, m))
    (hdiv : ['/'] ∉ m.suffixStk) :
    RevealsLocal sh3 r t expr parties ↔ Runnable t m.suffixStk :=
  ⟨runnable_of_revealsLocal himport hdiv, revealsLocal_of_runnable r parties himport hdiv⟩

/-- Three columns of one row, one at each party. -/
def sampleTable : Table where
  columns := [⟨['A'], 0, [3]⟩, ⟨['B'], 1, [2]⟩, ⟨['C'], 2, [-1]⟩]
  rows := 1
  nodup := by decide
  length_eq := by decide

/-- `A*(B-C)` reveals the local value to the parties 0 and 1. -/
theorem revealsLocal_product :
    RevealsLocal .unmasked () sampleTable ['A', '*', '(', 'B', '-', 'C', ')'] [0, 1] :=
  (revealsLocal_iff .unmasked () sampleTable _ [0, 1]
    ⟨[['A'], ['B'], ['C'], ['-'], ['*']], ['A', '*', '(', 'B', '-', 'C', ')']⟩ (by decide)
    (by decide)).mpr ⟨by decide, by decide, by decide, by decide⟩

/-- `A+1` is accepted, its operands are a column and a number, and the run stops with an
exception in `resolveRunMode`. -/
theorem not_revealsLocal_of_accepted :
    ¬ ∀ (sh3 : Sh3) (r : sh3.Runtime) (t : Table) (expr : Str) (parties : List Party)
      (m : Import), importExpress .new expr = some (0, m) → ['/'] ∉ m.suffixStk →
      (∀ token ∈ m.suffixStk, isOperatorStr token = false →
        (∃ c ∈ t.columns, c.name = token) ∨ IsNumber token) →
      RevealsLocal sh3 r t expr parties := by
  intro h
  have himport : importExpress .new ['A', '+', '1'] =
      some (0, ⟨[['A'], ['1'], ['+']], ['A', '+', '1']⟩) := by decide
  have hdiv : ['/'] ∉ [['A'], ['1'], ['+']] := by decide
  have htokens : ∀ token ∈ [['A'], ['1'], ['+']], isOperatorStr token = false →
      (∃ c ∈ sampleTable.columns, c.name = token) ∨ IsNumber token := by
    intro token htoken hop
    simp only [List.mem_cons, List.not_mem_nil, or_false] at htoken
    rcases htoken with rfl | rfl | rfl
    · exact Or.inl (by decide)
    · exact Or.inr ⟨['1'], by simp, List.forall_mem_singleton.mpr rfl, Or.inl rfl⟩
    · exact absurd hop (by decide)
  have hrun := runnable_of_revealsLocal himport hdiv
    (h .unmasked () sampleTable _ [0, 1] _ himport hdiv htokens)
  exact absurd (hrun.columns ['1'] (by decide) (by decide)) (by decide)

end Fediux.Express
