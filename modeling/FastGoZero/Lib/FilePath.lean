import FastGoZero.Lib.GoString
import Mathlib.Data.List.DropRight

/-!
# File paths

The lexical functions of `path/filepath` on a system whose separator is the slash.
-/

namespace FastGoZero.Lib.FilePath

open Str (bytes)

def slash : UInt8 := 47

def dot : UInt8 := 46

/-- One element of a path, with the elements before it, the last one first. -/
def cleanStep (rooted : Bool) (elements : List Str) (element : Str) : List Str :=
  if element = [] ∨ element = [dot] then elements
  else if element = [dot, dot] then
    match elements with
    | [] => if rooted then [] else [element]
    | last :: rest => if last = [dot, dot] then element :: elements else rest
  else element :: elements

variable (path : Str)

/-- `filepath.Clean`. -/
def clean : Str :=
  let rooted := path.head? == some slash
  let elements := (path.splitOn slash).foldl (cleanStep rooted) []
  let text := [slash].intercalate elements.reverse
  if rooted then slash :: text else if text = [] then [dot] else text

/-- The part before the last slash and with it, and the part after it. -/
def split : Str × Str :=
  (path.rdropWhile (· != slash), path.rtakeWhile (· != slash))

/-- `filepath.Dir`. -/
def dir : Str := clean (split path).1

/-- `filepath.Base`. -/
def base : Str :=
  if path = [] then [dot]
  else
    let last := (split (path.rdropWhile (· == slash))).2
    if last = [] then [slash] else last

/-- `filepath.Ext`. -/
def ext : Str :=
  let last := (split path).2
  if last.any (· == dot) then dot :: last.rtakeWhile (· != dot) else []

/-- `filepath.Join`. -/
def join (elements : List Str) : Str :=
  match elements.dropWhile (· == []) with
  | [] => []
  | first :: rest => clean ([slash].intercalate (first :: rest))

theorem clean_ne_nil : clean path ≠ [] := by
  unfold clean
  dsimp only
  split
  · simp
  split
  · simp
  · assumption

theorem join_ne_nil {first : Str} (nonempty : first ≠ []) (rest : List Str) :
    join (first :: rest) ≠ [] := by
  rw [join, List.dropWhile_cons_of_neg (by simpa using nonempty)]
  exact clean_ne_nil _

example : clean (bytes "a/./b/../c//d") = bytes "a/c/d" := by decide

example : ext (bytes "logs/a.b.log") = bytes ".log" ∧
    base (bytes "logs/a.b.log") = bytes "a.b.log" ∧ dir (bytes "logs/a.b.log") = bytes "logs" := by
  decide

end FastGoZero.Lib.FilePath
