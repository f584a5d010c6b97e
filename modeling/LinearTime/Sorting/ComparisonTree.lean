/-
  LinearTime.Sorting.ComparisonTree — sorting as a sequence of questions.

  A way of sorting knows its items only through questions of one form: does
  this item have to stand before that one?  Here it is written as the tree of
  these questions.  Which questions are asked, and in what order, is then fixed
  whoever answers them: an order, or something that changes while it is asked.
  Answers that no order gives may leave a tree without a result.

  Core only.
-/

namespace LinearTime

/-- Questions about items of type `β`, on the way to a result of type `γ`. -/
inductive ComparisonTree (β γ : Type) where
  | result (value : γ)
  /-- The answers contradict each other. -/
  | contradiction
  /-- Asks whether `x` has to stand before `y`. -/
  | ask (x y : β) (next : Bool → ComparisonTree β γ)

namespace ComparisonTree

variable {β γ δ : Type}

/-- Goes on with the questions of `f`. -/
def bind (f : γ → ComparisonTree β δ) : ComparisonTree β γ → ComparisonTree β δ
  | result value => f value
  | contradiction => contradiction
  | ask x y next => ask x y fun answer => bind f (next answer)

instance : Monad (ComparisonTree β) where
  pure := result
  bind tree f := tree.bind f

/-- One question: whether `x` has to stand before `y`. -/
def precedes (x y : β) : ComparisonTree β Bool := ask x y result

end ComparisonTree
end LinearTime
