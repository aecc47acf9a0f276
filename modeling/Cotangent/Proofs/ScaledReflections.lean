import Mathlib
import Cotangent.Proofs.RankRevealing
import Cotangent.Proofs.Scaling

/-! QR factorizations of a matrix and of a multiple of it, side by side. A reflection may turn out
differently on the multiple, where the sign of a zero decides, so the entries that are left do not
correspond. Their products column by column do: a reflection keeps them, and what a finished row takes
off them is known from the products. They decide which column is longest and, up to a sign, what comes
to the diagonal. -/
namespace Cotangent.QR

open Matrix

variable {α : Type} [FieldScalar α] [LinearOrder α] {c : α} {f f' t t' : QR α} {n k p : Nat}
  {r r' : Reflector α}

/-! ### One step -/

omit [LinearOrder α] in
/-- The products of what is left of two columns from a row on, with and without that row. -/
theorem dotProduct_restVector {a : DenseMatrix α} (below : k < n) (i j : Nat) :
    restVector a n k i ⬝ᵥ restVector a n k j =
      a.entry k i * a.entry k j + restVector a n (k + 1) i ⬝ᵥ restVector a n (k + 1) j := by
  have clear (j : Nat) : restVector a n (k + 1) j ⟨k, below⟩ = 0 := if_pos k.lt_succ_self
  rw [restVector_split below i, restVector_split below j, add_dotProduct, dotProduct_add,
    dotProduct_add, single_dotProduct, single_dotProduct, dotProduct_single, clear, clear,
    Pi.single_eq_same, mul_zero, zero_mul, add_zero, zero_add]

/-- Where nothing comes to the diagonal, nothing was left. -/
theorem Reduction.entry_eq_zero [IsStrictOrderedRing α] (step : Reduction f t n k p r)
    (below : k < n) (zero : t.r.entry k k = 0) {j : Nat} (reached : k ≤ j) (hj : j < n) :
    t.r.entry k j = 0 := by
  have there : Factor.exchange k p k = p := if_pos rfl
  obtain ⟨reached', hj'⟩ := step.exchange_mem reached le_rfl hj
  have short : restVector t.r n k j ⬝ᵥ restVector t.r n k j ≤ 0 := by
    have longest := step.largest _ reached' hj'
    have square := step.product_row below below
    rw [there, zero, zero_mul] at square
    rwa [← square, ← step.dotProduct le_rfl hj hj] at longest
  have nothing := dotProduct_self_eq_zero.mp
    (le_antisymm short (Finset.sum_nonneg fun i _ => mul_self_nonneg _))
  have here : restVector t.r n k j ⟨k, below⟩ = t.r.entry k j := if_neg (lt_irrefl k)
  rw [← here, nothing, Pi.zero_apply]

/-- What a step leaves of the products of columns follows from the products before it. -/
theorem Reduction.products [IsStrictOrderedRing α] (step : Reduction f t n k p r) (below : k < n)
    {i j : Nat} (reached : k ≤ i) (hi : i < n) (hj : j < n) :
    restVector t.r n (k + 1) i ⬝ᵥ restVector t.r n (k + 1) j =
      restVector f.r n k (Factor.exchange k p i) ⬝ᵥ restVector f.r n k (Factor.exchange k p j) -
        (restVector f.r n k p ⬝ᵥ restVector f.r n k (Factor.exchange k p i)) *
          (restVector f.r n k p ⬝ᵥ restVector f.r n k (Factor.exchange k p j)) /
            (restVector f.r n k p ⬝ᵥ restVector f.r n k p) := by
  have there : Factor.exchange k p k = p := if_pos rfl
  have square := step.product_row below below
  rw [there] at square
  rw [← step.dotProduct le_rfl hi hj, dotProduct_restVector below, ← step.product_row below hi,
    ← step.product_row below hj, ← square]
  by_cases zero : t.r.entry k k = 0
  · rw [step.entry_eq_zero below zero reached hi, zero]
    ring
  · field_simp
    ring

/-! ### Side by side -/

/-- After `k` steps of both runs the diagonal entries are multiples in magnitude, and the products of
what is left are multiples. -/
structure Scaled (c : α) (n k : Nat) (f f' : QR α) : Prop where
  perm : f'.perm = f.perm
  shape : f.r.shape = (n, n)
  shape' : f'.r.shape = (n, n)
  triangle : ∀ i < n, ∀ j < k, j < i → f.r.entry i j = 0
  triangle' : ∀ i < n, ∀ j < k, j < i → f'.r.entry i j = 0
  diagonal : ∀ i < k, |f'.r.entry i i| = |c| * |f.r.entry i i|
  products : ∀ i j, k ≤ i → i < n → k ≤ j → j < n →
    restVector f'.r n k i ⬝ᵥ restVector f'.r n k j =
      c * c * (restVector f.r n k i ⬝ᵥ restVector f.r n k j)

/-- Steps with the same longest column. -/
theorem Scaled.extend [IsStrictOrderedRing α] (scaled : Scaled c n k f f') (nonzero : c ≠ 0)
    (below : k < n) (step : Reduction f t n k p r) (step' : Reduction f' t' n k p r') :
    Scaled c n (k + 1) t t' := by
  have longest := scaled.products p p step.from_k step.below_n step.from_k step.below_n
  constructor
  case perm => rw [step.perm, step'.perm, scaled.perm]
  case shape => exact step.shape
  case shape' => exact step'.shape
  case triangle => exact step.triangle
  case triangle' => exact step'.triangle
  case diagonal =>
    intro i reached
    rcases Nat.lt_succ_iff_lt_or_eq.mp reached with earlier | rfl
    · rw [step.diagonal earlier below, step'.diagonal earlier below, scaled.diagonal i earlier]
    · have there : Factor.exchange i p i = p := if_pos rfl
      have square := step.product_row below below
      have square' := step'.product_row below below
      rw [there] at square square'
      rw [← abs_mul, abs_eq_iff_mul_self_eq, square', longest, ← square]
      ring
  case products =>
    intro i j reached hi reached' hj
    obtain ⟨above, inside⟩ := step.exchange_mem (Nat.le_of_succ_le reached) le_rfl hi
    obtain ⟨above', inside'⟩ := step.exchange_mem (Nat.le_of_succ_le reached') le_rfl hj
    rw [step.products below (Nat.le_of_succ_le reached) hi hj,
      step'.products below (Nat.le_of_succ_le reached) hi hj, longest,
      scaled.products _ _ above inside above' inside',
      scaled.products _ _ step.from_k step.below_n above inside,
      scaled.products _ _ step.from_k step.below_n above' inside']
    field_simp

variable [RootScalar α]

/-- The same column is longest. -/
theorem Scaled.longest (scaled : Scaled c n k f f') (nonzero : c ≠ 0) (below : k < n) :
    f'.longest n k = f.longest n k := by
  let weight (f : QR α) (j : Nat) : α := inner (rest f.r k j) (rest f.r k j)
  have weights (j : Nat) (later : k ≤ j) (inside : j < n) : weight f' j = c * c * weight f j := by
    dsimp only [weight]
    rw [inner_rest (congrArg Prod.fst scaled.shape) below.le,
      inner_rest (congrArg Prod.fst scaled.shape') below.le,
      scaled.products j j later inside later inside]
  have same := congrArg Prod.fst
    (Factor.firstMax_scaled (mul_self_pos.mpr nonzero) below weights)
  exact same

omit [LinearOrder α] [RootScalar α] in
/-- A column of the multiple is the multiple of the column. -/
theorem restVector_toDense_scaled {a : SparseMatrix α} (rows : a.nrows = n) (columns : a.ncols = n)
    (c : α) {j : Nat} (hj : j < n) :
    restVector (a.scaled c).toDense n 0 j = c • restVector a.toDense n 0 j := by
  funext i
  have hi : i < a.nrows := rows ▸ i.isLt
  rw [Pi.smul_apply, restVector, restVector, if_neg i.val.not_lt_zero, if_neg i.val.not_lt_zero,
    a.entry_toDense_scaled c hi (columns ▸ hj), smul_eq_mul]

omit [RootScalar α] in
theorem scaled_start {a : SparseMatrix α} (rows : a.nrows = n) (columns : a.ncols = n) :
    Scaled c n 0 ⟨a.toDense, #[], Array.range n⟩ ⟨(a.scaled c).toDense, #[], Array.range n⟩ := by
  constructor
  case perm => rfl
  case shape => exact Prod.ext rows columns
  case shape' => exact Prod.ext rows columns
  case triangle => exact fun _ _ j none => absurd none j.not_lt_zero
  case triangle' => exact fun _ _ j none => absurd none j.not_lt_zero
  case diagonal => exact fun i none => absurd none i.not_lt_zero
  case products =>
    intro i j _ hi _ hj
    dsimp only
    rw [restVector_toDense_scaled rows columns c hi, restVector_toDense_scaled rows columns c hj,
      smul_dotProduct, dotProduct_smul, smul_eq_mul, smul_eq_mul, mul_assoc]

/-- All steps. -/
theorem foldl_reduce_scaled {a : SparseMatrix α} (rows : a.nrows = n) (columns : a.ncols = n)
    (nonzero : c ≠ 0) (within : k ≤ n) : Scaled c n k
      ((List.range k).foldl reduce ⟨a.toDense, #[], Array.range n⟩)
      ((List.range k).foldl reduce ⟨(a.scaled c).toDense, #[], Array.range n⟩) := by
  induction k with
  | zero => exact scaled_start rows columns
  | succ k ih =>
    have scaled := ih (Nat.le_of_succ_le within)
    rw [List.range_succ, List.foldl_append, List.foldl_append]
    obtain ⟨r, step⟩ := exists_reduction (congrArg Prod.fst scaled.shape) within scaled.triangle
    obtain ⟨r', step'⟩ := exists_reduction (congrArg Prod.fst scaled.shape') within scaled.triangle'
    rw [scaled.longest nonzero within] at step'
    exact scaled.extend nonzero within step step'

/-! ### The backend -/

/-- The same entries of the diagonal count for the rank. -/
theorem Scaled.rank_eq (scaled : Scaled c n n f f') (nonzero : c ≠ 0) (options : Options α) :
    f'.rank options = f.rank options := by
  have order : f.order = n := congrArg Prod.fst scaled.shape
  have order' : f'.order = n := congrArg Prod.fst scaled.shape'
  rw [rank, rank, order, order']
  exact Factor.numericalRank_scaled (abs_pos.mpr nonzero)
    (fun k inside => scaled.diagonal k (List.mem_range.mp inside)) options.rankTolerance

omit [LinearOrder α] [RootScalar α] in
/-- A right-hand side of another size is refused before the rank is looked at. -/
theorem solve_of_size_ne (options : Options α) (order : f.order = n) {m nrhs : Nat}
    (other : m ≠ n * nrhs) (transposed : Bool) (rhs : Vector α m) :
    f.solve options nrhs transposed rhs =
      .error (sizeFault (n * nrhs) (.shapeMismatch [n, nrhs] [m])) := by
  rw [solve, order, Factor.eachColumn_refused other, Outcome.error_bind]

/-- Factors of a matrix and of its multiple give proportional solutions, or both refuse. -/
theorem Scaled.solve_eq {m : Matrix (Fin n) (Fin n) α} {π π' : Equiv.Perm (Fin n)}
    (scaled : Scaled c n n f f') (reduces : f.Reduces m n π) (reduces' : f'.Reduces (c • m) n π')
    (nonzero : c ≠ 0) {options : Options α} (nonneg : 0 ≤ options.rankTolerance) {size : Nat}
    (nrhs : Nat) (transposed : Bool) (rhs : Vector α size) :
    f'.solve options nrhs transposed rhs =
      (f.solve options nrhs transposed rhs).map fun x => x.map (· / c) := by
  have order : f.order = n := congrArg Prod.fst scaled.shape
  have order' : f'.order = n := congrArg Prod.fst scaled.shape'
  have same := scaled.rank_eq nonzero options
  by_cases whole : size = n * nrhs
  · by_cases full : f.rank options < f.order
    · have full' : f'.rank options < f'.order := by rwa [same, order', ← order]
      rw [solve_deficient full (order ▸ whole), solve_deficient full' (order' ▸ whole), same, order,
        order']
      rfl
    · have full' : ¬ f'.rank options < f'.order := by rwa [same, order', ← order]
      have solves := reduces.solves (order ▸ pivots_of_rank nonneg full) full
      have solves' := reduces'.solves (order' ▸ pivots_of_rank nonneg full') full'
      exact solves.scaled solves' nonzero whole transposed rhs
  · rw [solve_of_size_ne options order whole, solve_of_size_ne options order' whole]
    rfl

/-- Values and their multiples have proportional factors, or fail alike. -/
theorem rescaled {options : Options α} {a : SparseMatrix α} (rows : a.nrows = n)
    (columns : a.ncols = n) (nonzero : c ≠ 0) (nonneg : 0 ≤ options.rankTolerance) :
    Outcome.Parallel (fun f f' => BuiltIn.Rescaled c (.qr ⟨options, some n, some f⟩)
      (.qr ⟨options, some n, some f'⟩)) (factorize options a) (factorize options (a.scaled c)) := by
  by_cases roomy : a.pattern.Roomy
  · obtain ⟨f, done, π, reduces, -⟩ := factorize_reduces options roomy rows columns
    obtain ⟨f', done', π', reduces', -⟩ :=
      factorize_reduces (a := a.scaled c) options roomy rows columns
    have scaled : Scaled c n n f f' := by
      have steps := foldl_reduce_scaled rows columns nonzero le_rfl
      obtain ⟨-, rfl⟩ := eq_of_factorize done
      obtain ⟨-, rfl⟩ := eq_of_factorize done'
      rw [rows, show (a.scaled c).nrows = n from rows]
      exact steps
    rw [a.matrix_scaled] at reduces'
    rw [done, done']
    refine .ok ?_
    constructor
    case pivotOrder => exact congrArg some scaled.perm
    case rank => exact congrArg Except.ok (scaled.rank_eq nonzero options)
    case solve =>
      intro size nrhs transposed rhs
      exact scaled.solve_eq reduces reduces' nonzero nonneg nrhs transposed rhs
  · rw [factorize_of_crowded roomy, factorize_of_crowded (a := a.scaled c) roomy]
    exact .error rfl

end Cotangent.QR
