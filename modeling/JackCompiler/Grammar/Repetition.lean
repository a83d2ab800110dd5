import JackCompiler.Token.Window

/-!
# Repetition

A production is repeated for as long as the current token calls for another round. Each round slides
the window, so the tokens still to come bound the number of rounds.
-/

namespace JackCompiler

variable {S : Type} [TokenFeed S]

/-- Repeat a production at most a given number of times, given its results so far in reverse order,
while a condition on the window holds. -/
def repeatWithin {α : Type} (more : Window S → Bool) (item : ProductionOver S α) :
    Nat → List α → ProductionOver S (List α)
  | 0, items => return items.reverse
  | n + 1, items => do
      if more (← get) then
        let a ← item
        repeatWithin more item n (a :: items)
      else
        return items.reverse

/-- Repeat a production while a condition on the window holds. -/
def repeatWhile {α : Type} (more : Window S → Bool) (item : ProductionOver S α) :
    ProductionOver S (List α) := do
  repeatWithin more item ((← get).remaining + 1) []

/-- One item or more, with a comma between each two. -/
def commaSeparated {α : Type} (item : ProductionOver S α) : ProductionOver S (List α) := do
  let first ← item
  let others ← repeatWhile (fun w => w.atSymbol .comma) do
    slide
    item
  return first :: others

/-- Items separated by commas between parentheses, possibly none. -/
def parenthesised {α : Type} (item : ProductionOver S α) : ProductionOver S (List α) := do
  let _ ← take (.symbol .leftParen)
  let items ← if (← get).atSymbol .rightParen then pure [] else commaSeparated item
  let _ ← take (.symbol .rightParen)
  return items

end JackCompiler
