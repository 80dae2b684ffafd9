import Lowering.Binary64.Arith
/-!
# How alike two words are, for guessing what a mistyped option was meant to be

The measure is the mean of three ratios: the share of the first word's characters that occur in the second at about the
same place, the share the other way round, and the share of those characters that are also in the same order.
-/

namespace Lowering.Cli

/-- Finds the first character of `word` that is `c`, is not taken, and stands at one of the places from `low` to `high`;
gives the word with that character taken. -/
def takeNear (c : Char) (low high : Nat) : Nat → List (Char × Bool) → Option (List (Char × Bool))
  | _, [] => none
  | place, (d, taken) :: rest =>
    if low ≤ place && place ≤ high && c == d && !taken then some ((d, true) :: rest)
    else ((d, taken) :: ·) <$> takeNear c low high (place + 1) rest

/-- Matches the characters of one word with those of another that are at most `range` places away; gives the matched
characters in order, and the other word with its matched characters taken. -/
def matchNear (range : Nat) : Nat → List Char → List (Char × Bool) → List Char × List (Char × Bool)
  | _, [], word => ([], word)
  | place, c :: rest, word =>
    match takeNear c (place - range) (place + range) 0 word with
    | some word =>
      let (matched, word) := matchNear range (place + 1) rest word
      (c :: matched, word)
    | none => matchNear range (place + 1) rest word

/-- A quotient of two counts. -/
def share (part whole : Nat) : Binary64 := (Binary64.ofInt part).div (Binary64.ofInt whole)

/-- How alike two words are, from zero to one. The mean is rounded at every step, which decides whether a word that lies
right at the limit is alike enough. -/
def similarity (a b : List Char) : Binary64 :=
  let range := max a.length b.length / 2 - 1
  let (matched, word) := matchNear range 0 a (b.map (·, false))
  let others := (word.filter Prod.snd).map Prod.fst
  let count := matched.length
  if count = 0 then Binary64.zero
  else
    let moved := ((matched.zip others).filter fun p => p.1 != p.2).length / 2
    (((share count a.length).add (share count b.length)).add (share (count - moved) count)).div (Binary64.ofInt 3)

/-- Two words are alike enough to take one for the other above this similarity. -/
def limit : Binary64 := share 7 10

/-- The word most like a given one, if any is alike enough; of equally good ones the last. -/
def mostSimilar? (typed : String) (words : List String) : Option String :=
  let best := words.foldl (fun best word =>
    let s := similarity typed.toList word.toList
    if !limit.less s then best
    else
      match best with
      | some (_, t) => if s.less t then best else some (word, s)
      | none => some (word, s)) none
  best.map Prod.fst

end Lowering.Cli
