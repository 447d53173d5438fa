import GitCore.Lib.Bytes
import Mathlib.Data.Finset.Card
import Mathlib.Data.List.Sort

/-!
# Choosing the commit that halves a history

`do_find_bisection` and `find_bisection` of `bisect.c`. The passes over the list end with a chosen commit or go on; the
number of passes is bounded by a fuel. A read through a missing weight pointer has no result.
-/

namespace GitCore.Bisect

/-- The commits with their flags `UNINTERESTING` and `TREESAME`. -/
structure History (C : Type) where
  parents : C → List C
  oid : C → List UInt8
  uninteresting : C → Bool
  treeSame : C → Bool
  acyclic : WellFounded fun p c => p ∈ parents c

/-- `FIND_BISECTION_ALL` and `FIND_BISECTION_FIRST_PARENT_ONLY` -/
structure BisectFlags where
  all : Bool
  firstParentOnly : Bool

variable {C : Type} [DecidableEq C] (h : History C) (flags : BisectFlags)

def parentsOnTheWay (parents : List C) : List C := parents.tail ++ parents.take 1

/-- `count_distance`: the walk goes into the other parents before it goes on to the first one. -/
def countDistance (c : C) (counted : Finset C) : Nat × Finset C :=
  if h.uninteresting c ∨ c ∈ counted then (0, counted)
  else
    (parentsOnTheWay (h.parents c)).attach.foldl
      (fun acc p => (acc.1 + (countDistance p.1 acc.2).1, (countDistance p.1 acc.2).2))
      (if h.treeSame c then 0 else 1, insert c counted)
termination_by h.acyclic.wrap c
decreasing_by
  all_goals
    obtain hp | hp := List.mem_append.mp p.2
    · exact List.mem_of_mem_tail hp
    · exact List.mem_of_mem_take hp

def visitedParents (c : C) : List C := if flags.firstParentOnly then (h.parents c).take 1 else h.parents c

def countInterestingParents (c : C) : Nat :=
  ((visitedParents h flags c).filter fun p => ¬h.uninteresting p).length

def approxHalfway (c : C) (weight : Int) (nr : Nat) : Bool :=
  if h.treeSame c then false
  else
    let diff := 2 * weight - nr
    diff = -1 ∨ diff = 0 ∨ diff = 1 ∨ diff.natAbs < nr / 1024

def distance (weight : Int) (nr : Nat) : Int := if nr - weight < weight then nr - weight else weight

/-- The slots of the weights, the number of commits that are counted, and the commits with the flag `COUNTED`. -/
structure Weights (C : Type) where
  weight : C → Option Int
  counted : Nat
  marks : Finset C

def Weights.set (st : Weights C) (c : C) (w : Int) : Weights C :=
  { st with weight := Function.update st.weight c (some w) }

def initOne (st : Weights C) (p : C) : Weights C :=
  match countInterestingParents h flags p with
  | 0 => if h.treeSame p then st.set p 0 else { st.set p 1 with counted := st.counted + 1 }
  | 1 => st.set p (-1)
  | _ => st.set p (-2)

def visit (f : Weights C → C → Option (Weights C ⊕ C × Int)) : List C → Weights C → Option (Weights C ⊕ C × Int)
  | [], st => some (.inl st)
  | p :: list, st =>
    match f st p with
    | none => none
    | some (.inl st) => visit f list st
    | some (.inr found) => some (.inr found)

/-- Ends the function at a commit with this weight, unless all of them are asked for. -/
def checkHalfway (nr : Nat) (st : Weights C) (p : C) (w : Int) : Weights C ⊕ C × Int :=
  if ¬flags.all ∧ approxHalfway h p w nr then .inr (p, w) else .inl st

def clearDistance (list : List C) (marks : Finset C) : Finset C := marks.filter (· ∉ list)

def countMerge (nr : Nat) (list : List C) (st : Weights C) (p : C) : Option (Weights C ⊕ C × Int) :=
  if h.uninteresting p then some (.inl st)
  else
    match st.weight p with
    | none => none
    | some w =>
      if w ≠ -2 then some (.inl st)
      -- `BUG`
      else if flags.firstParentOnly then none
      else
        let r := countDistance h p st.marks
        some (checkHalfway h flags nr
          { st.set p r.1 with counted := st.counted + 1, marks := clearDistance list r.2 } p r.1)

def findKnown (st : Weights C) : List C → Option (Option Int)
  | [] => some none
  | q :: parents =>
    if h.uninteresting q then findKnown st parents
    else
      match st.weight q with
      | none => none
      | some w => if 0 ≤ w then some (some w) else findKnown st parents

def fillBlank (nr : Nat) (st : Weights C) (p : C) : Option (Weights C ⊕ C × Int) :=
  match st.weight p with
  | none => none
  | some w =>
    if 0 ≤ w then some (.inl st)
    else
      match findKnown h st (visitedParents h flags p) with
      | none => none
      | some none => some (.inl st)
      | some (some wq) =>
        if h.treeSame p then some (checkHalfway h flags nr (st.set p wq) p wq)
        else
          some (checkHalfway h flags nr { st.set p (wq + 1) with counted := st.counted + 1 } p (wq + 1))

def fillLoop (nr : Nat) (list : List C) : Nat → Weights C → Option (Weights C ⊕ C × Int)
  | 0, _ => none
  | fuel + 1, st =>
    if st.counted < nr then
      match visit (fillBlank h flags nr) list st with
      | none => none
      | some (.inl st) => fillLoop nr list fuel st
      | some (.inr found) => some (.inr found)
    else some (.inl st)

def bestBisectionLoop (st : Weights C) (nr : Nat) : List C → C → Int → Option C
  | [], best, _ => some best
  | p :: list, best, bestDistance =>
    if h.treeSame p then bestBisectionLoop st nr list best bestDistance
    else
      match st.weight p with
      | none => none
      | some w =>
        if bestDistance < distance w nr then bestBisectionLoop st nr list p (distance w nr)
        else bestBisectionLoop st nr list best bestDistance

/-- What `do_find_bisection` returns: a commit with its weight, or the list with the distances that decorate it. -/
inductive Bisection (C : Type)
  | nothing
  | best (commit : C) (weight : Int)
  | sorted (commits : List (C × Int))

def bestBisection (st : Weights C) (nr : Nat) (list : List C) : Option (Bisection C) :=
  match list with
  | [] => some .nothing
  | c :: rest =>
    match bestBisectionLoop h st nr (c :: rest) c (-1) with
    | none => none
    | some best => (st.weight best).map (.best best)

def compareCommitDist (a b : C × Int) : Int :=
  if a.2 ≠ b.2 then b.2 - a.2
  else if h.oid a.1 < h.oid b.1 then -1
  else if h.oid a.1 = h.oid b.1 then 0
  else 1

def commitDists (st : Weights C) (nr : Nat) : List C → Option (List (C × Int))
  | [] => some []
  | p :: list =>
    if h.treeSame p then commitDists st nr list
    else
      match st.weight p with
      | none => none
      | some w => (commitDists st nr list).map ((p, distance w nr) :: ·)

def bestBisectionSorted (st : Weights C) (nr : Nat) (list : List C) : Option (Bisection C) :=
  (commitDists h st nr list).map fun array =>
    .sorted (array.insertionSort fun a b => compareCommitDist h a b ≤ 0)

def doFindBisection (fuel : Nat) (list : List C) (nr : Nat) : Option (Bisection C) :=
  let st := list.foldl (initOne h flags) ⟨fun _ => none, 0, ∅⟩
  match visit (countMerge h flags nr list) list st with
  | none => none
  | some (.inr (c, w)) => some (.best c w)
  | some (.inl st) =>
    match fillLoop h flags nr list fuel st with
    | none => none
    | some (.inr (c, w)) => some (.best c w)
    | some (.inl st) => if flags.all then bestBisectionSorted h st nr list else bestBisection h st nr list

def findBisection (fuel : Nat) (commits : List C) : Option (Bisection C) × Nat :=
  let list := (commits.filter fun c => ¬h.uninteresting c).reverse
  let nr := list.countP fun c => ¬h.treeSame c
  (doFindBisection h flags fuel list nr, nr)

end GitCore.Bisect
