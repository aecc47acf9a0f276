import Mathlib
import Cotangent.Expression.Elementwise
import Cotangent.Proofs.Entries
import Cotangent.Proofs.Shapes

/-! The rules of entrywise operations, entry by entry. With a one by one operand repeated to the shape of
the result, the rule for matrices is one for numbers. -/
namespace Cotangent

section Ring

variable {α : Type} [RingScalar α]

namespace UnaryKind

theorem entry_chain (k : UnaryKind) {x y seed dy : DenseMatrix α} (result : y.shape = x.shape)
    (along : seed.shape = x.shape) (chained : k.chain [x] y (.ok seed) = .ok dy) :
    dy.shape = x.shape ∧ ∀ i < x.nrows, ∀ j < x.ncols,
      dy.entry i j = k.derivative (x.entry i j) (y.entry i j) * seed.entry i j := by
  obtain ⟨slope, sloped, fits⟩ := DenseMatrix.exists_zipMap_same k.derivative (a := x) rfl result
  obtain ⟨dy', product, fits'⟩ := DenseMatrix.exists_zipMap_same (· * ·) fits along
  have answered : slope.zipMap (· * ·) seed = .ok dy := by
    simpa [chain, elementAt, sloped] using chained
  obtain rfl : dy' = dy := Except.ok.inj (product.symm.trans answered)
  refine ⟨fits', fun i hi j hj => ?_⟩
  have whole {m : DenseMatrix α} (fits : m.shape = x.shape) := DenseMatrix.broadcast_of_shape fits hi hj
  rw [DenseMatrix.entry_zipMap_of_shape product fits' hi hj, whole fits, whole along,
    DenseMatrix.entry_zipMap_of_shape sloped fits hi hj, whole rfl, whole result]

end UnaryKind

namespace BinaryKind

/-- The sensitivity of an entry of the result. -/
def pushEntry : BinaryKind → (a b y da db : α) → α
  | add, _, _, _, da, db => da + db
  | sub, _, _, _, da, db => da - db
  | mul, a, b, _, da, db => da * b + a * db
  | div, _, b, y, da, db => (da - y * db) / b

/-- The rule for matrices is the rule for entries. -/
theorem entry_push (k : BinaryKind) {a b y da db dy : DenseMatrix α} {s : Shape}
    (fits : broadcastShape a.shape b.shape = .ok s) (result : y.shape = s)
    (left : da.shape = a.shape) (right : db.shape = b.shape)
    (pushed : k.push a b y da db = .ok dy) :
    dy.shape = s ∧ ∀ i < s.1, ∀ j < s.2, dy.entry i j = k.pushEntry (a.broadcast i j)
      (b.broadcast i j) (y.entry i j) (da.broadcast i j) (db.broadcast i j) := by
  obtain ⟨dy', pushed', shape⟩ := k.exists_push fits result left right
  obtain rfl : dy' = dy := Except.ok.inj (pushed'.symm.trans pushed)
  refine ⟨shape, fun i hi j hj => ?_⟩
  -- an intermediate matrix of the shape of the result has no entries to repeat
  have whole {m : DenseMatrix α} (fits : m.shape = s) := DenseMatrix.broadcast_of_shape fits hi hj
  have zipped {f : α → α → α} {u v m : DenseMatrix α} (fits : m.shape = s)
      (zipped : u.zipMap f v = .ok m) := DenseMatrix.entry_zipMap_of_shape zipped fits hi hj
  obtain ⟨-, first, second⟩ := DenseMatrix.broadcastShape_eq_ok.mp fits
  cases k with
  | add | sub => exact zipped shape pushed
  | mul =>
    obtain ⟨u, hu, fits₁⟩ := DenseMatrix.exists_zipMap (· * ·) (a := da) (b := b)
      (by rw [left, fits])
    obtain ⟨v, hv, fits₂⟩ := DenseMatrix.exists_zipMap (· * ·) (a := a) (b := db)
      (by rw [right, fits])
    simp only [push, hu, hv, Outcome.ok_bind] at pushed
    rw [zipped shape pushed, whole fits₁, whole fits₂, zipped fits₁ hu, zipped fits₂ hv]
    rfl
  | div =>
    obtain ⟨u, hu, fits₁⟩ := DenseMatrix.exists_zipMap (· * ·) (a := y) (b := db)
      (DenseMatrix.broadcastShape_eq_ok.mpr ⟨.inl result, .inl result, right ▸ second⟩)
    obtain ⟨v, hv, fits₂⟩ := DenseMatrix.exists_zipMap (· - ·) (a := da) (b := u)
      (DenseMatrix.broadcastShape_eq_ok.mpr ⟨.inr fits₁, left ▸ first, .inl fits₁⟩)
    simp only [push, hu, hv, Outcome.ok_bind] at pushed
    rw [zipped shape pushed, whole fits₂, zipped fits₂ hv, whole fits₁, zipped fits₁ hu,
      whole result]
    rfl

/-- The contributions of an entry of the result, before those of repeated entries are summed up. -/
def pullEntry : BinaryKind → (a b y g : α) → α × α
  | add, _, _, _, g => (g, g)
  | sub, _, _, _, g => (g, -1 * g)
  | mul, a, b, _, g => (g * b, g * a)
  | div, _, b, y, g => (g / b, -(g / b) * y)

/-- The rule for matrices is the rule for entries. -/
theorem entry_pull (k : BinaryKind) {a b y g ga gb : DenseMatrix α} {s : Shape}
    (fits : broadcastShape a.shape b.shape = .ok s) (result : y.shape = s) (along : g.shape = s)
    (pulled : k.pull a b y g = .ok (ga, gb)) :
    ∀ i < s.1, ∀ j < s.2, (ga.entry i j, gb.entry i j) =
      k.pullEntry (a.broadcast i j) (b.broadcast i j) (y.entry i j) (g.entry i j) := by
  intro i hi j hj
  have whole {m : DenseMatrix α} (fits : m.shape = s) := DenseMatrix.broadcast_of_shape fits hi hj
  have zipped {f : α → α → α} {u v m : DenseMatrix α} (fits : m.shape = s)
      (zipped : u.zipMap f v = .ok m) := DenseMatrix.entry_zipMap_of_shape zipped fits hi hj
  obtain ⟨ga', gb', pulled', left, right⟩ := k.exists_pull fits result along
  cases pulled.symm.trans pulled'
  cases k with
  | add =>
    cases pulled
    rfl
  | sub =>
    cases pulled
    obtain ⟨rows, columns⟩ := Prod.mk.inj along
    rw [DenseMatrix.scaled, DenseMatrix.entry_map _ (rows.symm ▸ hi) (columns.symm ▸ hj)]
    rfl
  | mul =>
    obtain ⟨u, first, pulled⟩ := Outcome.bind_eq_ok.mp pulled
    obtain ⟨v, second, pulled⟩ := Outcome.bind_eq_ok.mp pulled
    cases pulled
    rw [zipped left first, zipped right second, whole along]
    rfl
  | div =>
    obtain ⟨u, first, pulled⟩ := Outcome.bind_eq_ok.mp pulled
    obtain ⟨v, second, pulled⟩ := Outcome.bind_eq_ok.mp pulled
    cases pulled
    rw [zipped right second, whole left, whole result, zipped left first, whole along]
    rfl

end BinaryKind

end Ring

/-- For single entries the two rules are dual. -/
theorem BinaryKind.pushEntry_mul {α : Type} [FieldScalar α] (k : BinaryKind) (a b y da db g : α) :
    k.pushEntry a b y da db * g =
      da * (k.pullEntry a b y g).1 + db * (k.pullEntry a b y g).2 := by
  cases k with
  | add | sub | mul | div =>
    simp only [pushEntry, pullEntry]
    ring

end Cotangent
