import CsoLabs.Foundation.CArray
import CsoLabs.Foundation.CInt

namespace CsoLabs.Sieve

open Foundation CInt CArray

def initializeLoop (n : ℤ) : ℕ → ℤ → List ℤ → Option (List ℤ)
  | 0, _, _ => none
  | fuel + 1, i, arr =>
    if i < n then do
      let arr ← store arr i 1
      let i ← int (i + 1)
      initializeLoop n fuel i arr
    else some arr

def initializeArray (arr : List ℤ) (n : ℤ) : Option (List ℤ) :=
  initializeLoop n (n.toNat + 1) 0 arr

def markLoop (n p : ℤ) : ℕ → ℤ → List ℤ → Option (List ℤ)
  | 0, _, _ => none
  | fuel + 1, i, arr =>
    if i < n then do
      let product ← int (i * p)
      if product < n then
        let arr ← store arr product 0
        let i ← int (i + 1)
        markLoop n p fuel i arr
      else some arr
    else some arr

def markMultiples (arr : List ℤ) (n p : ℤ) : Option (List ℤ) := markLoop n p (n.toNat + 1) 2 arr

def sievesLoop (n : ℤ) : ℕ → ℤ → List ℤ → Option (List ℤ)
  | 0, _, _ => none
  | fuel + 1, i, arr =>
    if i < n then do
      let arr ← markMultiples arr n i
      let i ← int (i + 1)
      sievesLoop n fuel i arr
    else some arr

def primeNumberSieves (arr : List ℤ) (n : ℤ) : Option (List ℤ) := do
  let arr ← initializeArray arr n
  sievesLoop n (n.toNat + 1) 2 arr

def divisorLoop (n : ℤ) (sieve : List ℤ) : ℕ → ℤ → ℤ → Option ℤ
  | 0, _, _ => none
  | fuel + 1, i, divisor =>
    if i < n then do
      let x ← load sieve i
      if x = 1 ∧ n.tmod i = 0 then some i
      else
        let i ← int (i + 1)
        divisorLoop n sieve fuel i divisor
    else some divisor

/-- Returns the result and `*divisor`; `garbage` is what is in the memory from `malloc`. -/
def findSmallestDivisor (garbage : ℕ → ℤ) (n divisor : ℤ) : Option (ℤ × ℤ) := do
  let arraysize ← int (n + 1)
  let sieve ← primeNumberSieves ((List.range arraysize.toNat).map garbage) arraysize
  let divisor ← divisorLoop n sieve (n.toNat + 1) 2 divisor
  let x ← load sieve n
  return (if x = 0 then 1 else 0, divisor)

end CsoLabs.Sieve
