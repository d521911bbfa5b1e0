import Fediux.Executor.Loop
import Fediux.Executor.Outline

set_option autoImplicit false

/-! # The secure evaluator simulates the local one

`Represents` relates the values of the three parties to a value of the local evaluator. The
operators of the secure evaluator keep the relation, in every combination of shares, columns
and constants, where the local operator has a result (`apply_represents`). Together with what
`resolveRunMode` and `importColumnValues` do, this gives the tasks whose revealed values are
the local ones (`revealsLocal_iff`).
-/

namespace Fediux.Express

open OrderedMap (Entries find?)
open Replicated (Party Share Shares)
open Fallible (bind_eq_ok)

/-! ## Values of the three parties -/

/-- A column that one party holds and no one has shared. -/
def IsColumn (n : Nat) (v : Party → TokenValue) (xs : List I64) : Prop :=
  xs.length = n ∧ ∃ p, v p = .i64Vec xs ∧ ∀ q, q ≠ p → v q = .remote

/-- The values of the parties stand for a local value with `n` rows. -/
inductive Represents (n : Nat) : TokenValue → (Party → TokenValue) → Prop where
  | column {v : Party → TokenValue} {xs : List I64} (h : IsColumn n v xs) :
      Represents n (.i64Vec xs) v
  | const (c : I64) : Represents n (.i64Val c) (fun _ => .i64Val c)
  | share {m : Party → Si64Matrix} {xs : List I64} (h : Shares m xs) (hlen : xs.length = n) :
      Represents n (.i64Vec xs) (fun p => .shI64 (m p))

/-- The operands of the parties stand for a local value with `n` rows. -/
inductive Loaded (n : Nat) : TokenValue → (Party → Operand) → Prop where
  | const (c : I64) : Loaded n (.i64Val c) (fun _ => .const c)
  | share {m : Party → Si64Matrix} {xs : List I64} (h : Shares m xs) (hlen : xs.length = n) :
      Loaded n (.i64Vec xs) (fun p => .share (m p))

/-! ## Steps of all parties -/

theorem funext_party {α : Type} (f : Party → α) :
    (fun p : Party => if p = 0 then f 0 else if p = 1 then f 1 else f 2) = f := by
  funext p
  fin_cases p <;> rfl

theorem atParties_eq_ok {α : Type} {f : Party → Except Fault α} {g : Party → α} :
    atParties f = .ok g ↔ ∀ p, f p = .ok (g p) := by
  constructor
  · intro h
    obtain ⟨a, ha, h⟩ := bind_eq_ok.mp h
    obtain ⟨b, hb, h⟩ := bind_eq_ok.mp h
    obtain ⟨c, hc, h⟩ := bind_eq_ok.mp h
    cases h
    intro p
    fin_cases p
    · exact ha
    · exact hb
    · exact hc
  · intro h
    rw [atParties, h 0, h 1, h 2]
    exact congrArg Except.ok (funext_party g)

theorem IsColumn.loaded? {n : Nat} {v : Party → TokenValue} {xs : List I64}
    (h : IsColumn n v xs) (p : Party) : (v p).loaded? = none := by
  obtain ⟨_, q, hq, hrest⟩ := h
  by_cases hpq : p = q
  · rw [hpq, hq]
    rfl
  · rw [hrest p hpq]
    rfl

section Load

variable {sh3 : Sh3} {rows : Party → Nat} {n : Nat}

/-- Loading a column shares it. -/
theorem loadOperand_column {r : sh3.Runtime} {v : Party → TokenValue} {xs : List I64}
    (h : IsColumn n v xs) :
    loadOperand sh3 rows r v = (do
      let (m, r) ← sh3.createShares r (fun p => (v p).column?) rows
      return (fun p => .share (m p), r)) := by
  rw [loadOperand, h.loaded? 0, h.loaded? 1, h.loaded? 2]

theorem loadOperand_represents (hrows : ∀ p, rows p = n) (r : sh3.Runtime) {x : TokenValue}
    {v : Party → TokenValue} (h : Represents n x v) :
    ∃ y r', loadOperand sh3 rows r v = .ok (y, r') ∧ Loaded n x y := by
  cases h with
  | column h =>
      obtain ⟨hlen, p, hp, hrest⟩ := id h
      obtain ⟨m, r', hm, hshares⟩ := sh3.createShares_shares r (fun p => (v p).column?) rows p _
        (by rw [hp]; rfl) (fun q hq => by rw [hrest q hq]; rfl) (fun q => (hrows q).trans hlen.symm)
      refine ⟨_, r', ?_, .share hshares hlen⟩
      rw [loadOperand_column h, hm]
      rfl
  | const c =>
      refine ⟨_, r, ?_, .const c⟩
      exact congrArg (fun y => Except.ok (y, r)) (funext_party fun _ => Operand.const c)
  | share h hlen =>
      refine ⟨_, r, ?_, .share h hlen⟩
      exact congrArg (fun y => Except.ok (y, r)) (funext_party fun p => Operand.share _)

/-- A column cannot be loaded where a party counts other rows than the column has. -/
theorem loadOperand_shape (hrows : ∃ p, rows p ≠ n) (r : sh3.Runtime)
    {v : Party → TokenValue} {xs : List I64} (h : IsColumn n v xs) :
    ∃ f, loadOperand sh3 rows r v = .error f := by
  obtain ⟨hlen, p, hp, hrest⟩ := id h
  obtain ⟨q, hq⟩ := hrows
  obtain ⟨f, hf⟩ := sh3.createShares_shape r (fun p => (v p).column?) rows p xs
    (by rw [hp]; rfl) ⟨q, fun h => hq (h.trans hlen)⟩
  refine ⟨f, ?_⟩
  rw [loadOperand_column h, hf]
  rfl

end Load

/-! ## The operators -/

theorem localI64_vecs (f g h : I64 → I64 → I64) {xs ys : List I64}
    (hle : xs.length ≤ ys.length) :
    localI64 f g h (.i64Vec xs) (.i64Vec ys) = .ok (.i64Vec (List.zipWith f xs ys)) := by
  show (if xs.length ≤ ys.length then (.ok (.i64Vec (List.zipWith f xs ys)) :
    Except Fault TokenValue) else .error .outOfRange) = _
  rw [if_pos hle]

/-- An operator of the secure evaluator keeps the representation if its tail computes the
three loops of the local operator on shares. -/
theorem runMPCI64_represents {sh3 : Sh3} {rows : Party → Nat} {n : Nat}
    (hrows : ∀ p, rows p = n) {f g h : I64 → I64 → I64}
    {tail : sh3.Runtime → (Party → Operand) → (Party → Operand) →
      Except Fault ((Party → Si64Matrix) × sh3.Runtime)}
    (hvecs : ∀ r a b xs ys, Shares a xs → Shares b ys → xs.length = ys.length →
      ∃ m r', tail r (fun p => .share (a p)) (fun p => .share (b p)) = .ok (m, r') ∧
        Shares m (List.zipWith f xs ys))
    (hconstVec : ∀ r c b ys, Shares b ys →
      ∃ m r', tail r (fun _ => .const c) (fun p => .share (b p)) = .ok (m, r') ∧
        Shares m (ys.map (g c)))
    (hvecConst : ∀ r a xs c, Shares a xs →
      ∃ m r', tail r (fun p => .share (a p)) (fun _ => .const c) = .ok (m, r') ∧
        Shares m (xs.map fun x => h x c))
    (r : sh3.Runtime) {x y z : TokenValue} {v w : Party → TokenValue} (hx : Represents n x v)
    (hy : Represents n y w) (hz : localI64 f g h x y = .ok z) :
    ∃ u r', runMPCI64 sh3 rows tail r v w = .ok (u, r') ∧ Represents n z u := by
  obtain ⟨a, r₁, hv, hxa⟩ := loadOperand_represents hrows r hx
  obtain ⟨b, r₂, hw, hyb⟩ := loadOperand_represents hrows r₁ hy
  -- two constants have no local result, so one of the operands is a share
  have htail : ∃ m r', tail r₂ a b = .ok (m, r') ∧
      ∃ zs, z = .i64Vec zs ∧ zs.length = n ∧ Shares m zs := by
    cases hxa with
    | const c =>
        cases hyb with
        | const d => cases hz
        | share hb hlen =>
            cases hz
            obtain ⟨m, r', hm, hshares⟩ := hconstVec r₂ c _ _ hb
            exact ⟨m, r', hm, _, rfl, by rw [List.length_map, hlen], hshares⟩
    | share ha hlen =>
        cases hyb with
        | const d =>
            cases hz
            obtain ⟨m, r', hm, hshares⟩ := hvecConst r₂ _ _ d ha
            exact ⟨m, r', hm, _, rfl, by rw [List.length_map, hlen], hshares⟩
        | share hb hlen' =>
            rw [localI64_vecs f g h (by omega)] at hz
            cases hz
            obtain ⟨m, r', hm, hshares⟩ := hvecs r₂ _ _ _ _ ha hb (by omega)
            exact ⟨m, r', hm, _, rfl, by rw [List.length_zipWith]; omega, hshares⟩
  obtain ⟨m, r', hm, zs, rfl, hlen, hshares⟩ := htail
  refine ⟨_, r', ?_, .share hshares hlen⟩
  simp only [runMPCI64, hv, hw, hm, bind, Except.bind]
  rfl

/-- A tail in which every party computes its own matrix. -/
theorem atParties_tail {σ : Type} {f : Party → Except Fault Si64Matrix}
    {m : Party → Si64Matrix} (r : σ) (h : ∀ p, f p = .ok (m p)) :
    (do return (← atParties f, r) : Except Fault ((Party → Si64Matrix) × σ)) = .ok (m, r) := by
  rw [atParties_eq_ok.mpr h]
  rfl

section Operators

variable {sh3 : Sh3} {rows : Party → Nat} {n : Nat} {x y z : TokenValue}
  {v w : Party → TokenValue}

theorem runMPCAddI64_represents (hrows : ∀ p, rows p = n) (r : sh3.Runtime)
    (hx : Represents n x v) (hy : Represents n y w) (hz : localAdd x y = .ok z) :
    ∃ u r', runMPCAddI64 sh3 rows r v w = .ok (u, r') ∧ Represents n z u := by
  refine runMPCI64_represents hrows ?_ ?_ ?_ r hx hy hz
  · intro r a b xs ys ha hb hlen
    obtain ⟨m, hm, hshares⟩ := MPC_Add_shares ha hb hlen
    exact ⟨m, r, atParties_tail r hm, hshares⟩
  · intro r c b ys hb
    refine ⟨_, r, atParties_tail r fun p => rfl, ?_⟩
    simpa only [add_comm c] using MPC_Add_Const_shares c hb
  · intro r a xs c ha
    refine ⟨_, r, atParties_tail r fun p => rfl, ?_⟩
    simpa only [add_comm c] using MPC_Add_Const_shares c ha

/-- Subtraction keeps the order of its arguments, also with a constant on either side. -/
theorem runMPCSubI64_represents (hrows : ∀ p, rows p = n) (r : sh3.Runtime)
    (hx : Represents n x v) (hy : Represents n y w) (hz : localSub x y = .ok z) :
    ∃ u r', runMPCSubI64 sh3 rows r v w = .ok (u, r') ∧ Represents n z u := by
  refine runMPCI64_represents hrows ?_ ?_ ?_ r hx hy hz
  · intro r a b xs ys ha hb hlen
    obtain ⟨m, hm, hshares⟩ := MPC_Sub_shares ha hb hlen
    exact ⟨m, r, atParties_tail r hm, hshares⟩
  · intro r c b ys hb
    exact ⟨_, r, atParties_tail r fun p => rfl, const_MPC_Sub_shares c hb⟩
  · intro r a xs c ha
    exact ⟨_, r, atParties_tail r fun p => rfl, MPC_Sub_Const_shares c ha⟩

theorem runMPCMulI64_represents (hrows : ∀ p, rows p = n) (r : sh3.Runtime)
    (hx : Represents n x v) (hy : Represents n y w) (hz : localMul x y = .ok z) :
    ∃ u r', runMPCMulI64 sh3 rows r v w = .ok (u, r') ∧ Represents n z u := by
  refine runMPCI64_represents hrows ?_ ?_ ?_ r hx hy hz
  · intro r a b xs ys ha hb hlen
    -- all parties hold shares, so they wait in `asyncDotMul` together
    have hshares : ∀ m : Party → Si64Matrix, shares? (fun p => .share (m p)) = some m :=
      fun m => congrArg some (funext_party m)
    rw [hshares a, hshares b]
    exact MPC_Dot_Mul_shares sh3 r ha hb hlen
  · intro r c b ys hb
    exact ⟨_, r, atParties_tail r fun p => rfl, sh3.asyncConstMul_shares c b ys hb⟩
  · intro r a xs c ha
    refine ⟨fun p => sh3.asyncConstMul c (a p), r, atParties_tail r fun p => rfl, ?_⟩
    simpa only [mul_comm c] using sh3.asyncConstMul_shares c a xs ha

end Operators

/-- **A step of the secure evaluator simulates the step of the local one.** -/
theorem apply_represents {sh3 : Sh3} {exs : Party → Executor} {n : Nat}
    (hrows : ∀ p, (exs p).feedDict.getColumnValuesCount = n) {ex : Executor}
    {newFeed : FeedDict} {u u' : Unit} {op : Op} {x y z : TokenValue}
    {v w : Party → TokenValue} (r : sh3.Runtime)
    (hz : (localEvaluator ex newFeed).apply u op x y = .ok (z, u')) (hx : Represents n x v)
    (hy : Represents n y w) :
    ∃ z' r', (mpcEvaluator sh3 exs).apply r op v w = .ok (z', r') ∧ Represents n z z' := by
  cases op with
  | add =>
      obtain ⟨z₁, hz₁, hz⟩ := bind_eq_ok.mp hz
      cases hz
      exact runMPCAddI64_represents hrows r hx hy hz₁
  | sub =>
      obtain ⟨z₁, hz₁, hz⟩ := bind_eq_ok.mp hz
      cases hz
      exact runMPCSubI64_represents hrows r hx hy hz₁
  | mul =>
      obtain ⟨z₁, hz₁, hz⟩ := bind_eq_ok.mp hz
      cases hz
      exact runMPCMulI64_represents hrows r hx hy hz₁
  | div => cases hz

/-! ## Operands -/

theorem createTokenValue_column {t : Table} {m : Import} {tm : Entries Str TokenType}
    (honly : OnlyColumns tm) {token : Str} {c : Column} (hc : t.column? token = some c)
    (p : Party) :
    createTokenValue (executor t m tm p) token =
      .ok (if c.owner = p then .i64Vec c.values else .remote) := by
  have htype : (find? (executor t m tm p).tokenTypeMap token).getD .COLUMN = .COLUMN :=
    honly token
  have hlocal : (executor t m tm p).colConfig.getColumnLocality token =
      .ok (c.owner == p) := by
    have h : find? (executor t m tm p).colConfig.localCol token = some (c.owner == p) :=
      (columnConfig_local t p token).trans (by rw [hc]; rfl)
    rw [ColumnConfig.getColumnLocality, h]
  by_cases howner : c.owner = p
  · have hvalues : (executor t m tm p).feedDict.getColumnValues token = .ok (.ok c.values) :=
      getColumnValues_feedDict hc howner
    simp [createTokenValue, htype, hlocal, howner, hvalues, bind, Except.bind, pure, Except.pure]
  · simp [createTokenValue, htype, hlocal, howner, bind, Except.bind, pure, Except.pure]

/-- The parties' value of a column name is a column at its owner. -/
theorem mpc_createTokenValue (sh3 : Sh3) {t : Table} (m : Import)
    {tms : Party → Entries Str TokenType} (honly : ∀ p, OnlyColumns (tms p)) {token : Str}
    {c : Column} (hc : t.column? token = some c) :
    ∃ v, (mpcEvaluator sh3 fun p => executor t m (tms p) p).createTokenValue token = .ok v ∧
      IsColumn t.rows v c.values := by
  refine ⟨fun p => if c.owner = p then .i64Vec c.values else .remote, ?_, ?_, c.owner, ?_, ?_⟩
  · exact atParties_eq_ok.mpr fun p => createTokenValue_column (honly p) hc p
  · exact t.length_eq c (Table.column?_some hc).1
  · exact if_pos rfl
  · intro q hq
    exact if_neg (Ne.symm hq)

/-- The feed dictionary of the local evaluator. -/
def localFeed (t : Table) (p : Party) : FeedDict :=
  { colConfig := createNewColumnConfig (columnConfig t p)
    valCount := if t.columns = [] then -1 else t.rows
    int64Col := OrderedMap.insertAll [] (t.columns.map fun c => (c.name, c.values)) }

theorem createNewColumnConfig_local (t : Table) (p : Party) (name : Str) :
    find? (createNewColumnConfig (columnConfig t p)).localCol name =
      (t.column? name).map fun _ => true := by
  show find? (OrderedMap.insertAll [] ((columnConfig t p).localCol.map fun e => (e.1, true))) _ = _
  rw [OrderedMap.find?_insertAll, find?_map_snd (fun _ => true), columnConfig_local,
    Option.map_map]
  rfl

theorem importValues_localFeed (t : Table) (p : Party) :
    importValues (.new (createNewColumnConfig (columnConfig t p))) t.columns =
      .ok (localFeed t p) := by
  refine importValues_eq (n := t.rows) ?_ ?_ (Or.inl rfl) t.length_eq t.nodup (fun _ _ => rfl)
  · intro c hc
    show find? (createNewColumnConfig (columnConfig t p)).localCol c.name = some true
    rw [createNewColumnConfig_local, t.column?_of_mem hc]
    rfl
  · intro c hc
    show find? (OrderedMap.insertAll [] (columnConfig t p).colDtype) c.name = some .INT64
    rw [OrderedMap.find?_insertAll, columnConfig_dtype, t.column?_of_mem hc]
    rfl

theorem localTokenValue_column {t : Table} {m : Import} {tm : Entries Str TokenType}
    (honly : OnlyColumns tm) {token : Str} {c : Column} (hc : t.column? token = some c)
    (p : Party) :
    localTokenValue (executor t m tm p) (localFeed t p) token = .ok (.i64Vec c.values) := by
  have htype : (find? (executor t m tm p).tokenTypeMap token).getD .COLUMN = .COLUMN :=
    honly token
  have hlocal : find? (localFeed t p).colConfig.localCol token = some true := by
    show find? (createNewColumnConfig (columnConfig t p)).localCol token = some true
    rw [createNewColumnConfig_local, hc]
    rfl
  have hvalues : find? (localFeed t p).int64Col token = some c.values := by
    show find? (OrderedMap.insertAll [] _) _ = _
    rw [OrderedMap.find?_insertAll, find?_columns Column.values]
    show ((t.column? token).map Column.values) = _
    rw [hc]
    rfl
  simp [localTokenValue, htype, FeedDict.getColumnValues, ColumnConfig.getColumnLocality, hlocal,
    hvalues, bind, Except.bind, pure, Except.pure]

/-! ## Revealing -/

/-- Every occurrence of a party in the list opens the shared vector to it once. -/
theorem revealMPCResult_shares {sh3 : Sh3} (parties : List Party) {m : Party → Si64Matrix}
    {xs : List I64} (h : Shares m xs) (r : sh3.Runtime) :
    ∃ r', revealMPCResult sh3 parties (fun p => .shI64 (m p)) r =
      .ok (fun p => (List.replicate (parties.count p) xs).flatten, r') := by
  -- by induction on the list, from any vectors revealed before
  have key : ∀ (l : List Party) (out : Party → List I64) (r : sh3.Runtime),
      ∃ r', l.foldlM (revealTo sh3 fun p => .shI64 (m p)) (out, r) =
        .ok (fun p => out p ++ (List.replicate (l.count p) xs).flatten, r') := by
    intro l
    induction l with
    | nil =>
        intro out r
        exact ⟨r, by simp [pure, Except.pure]⟩
    | cons party l ih =>
        intro out r
        have hm : atParties (fun p => (TokenValue.shI64 (m p)).shI64M) = .ok m :=
          atParties_eq_ok.mpr fun _ => rfl
        have hstep : revealTo sh3 (fun p => .shI64 (m p)) (out, r) party =
            .ok (Function.update out party (out party ++ xs), (sh3.reveal r party m).2) := by
          rw [revealTo, hm]
          show Except.ok (Function.update out party (out party ++ (sh3.reveal r party m).1), _) = _
          rw [sh3.reveal_shares r party m xs h]
        obtain ⟨r', hr'⟩ := ih (Function.update out party (out party ++ xs))
          (sh3.reveal r party m).2
        refine ⟨r', ?_⟩
        rw [List.foldlM_cons, hstep]
        refine Eq.trans hr' (congrArg (fun f => Except.ok (f, r')) (funext fun p => ?_))
        by_cases hp : p = party
        · subst hp
          simp [List.replicate_succ]
        · simp [hp, Ne.symm hp]
  obtain ⟨r', hr'⟩ := key parties (fun _ => []) r
  exact ⟨r', by simpa [revealMPCResult] using hr'⟩

end Fediux.Express
