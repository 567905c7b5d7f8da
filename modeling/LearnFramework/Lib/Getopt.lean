import Mathlib.Data.List.Basic

/-!
# `getopt`

The options of a command line, in the order in which `getopt` returns them, for
an option string without leading `:`, `+` or `-`. Operands are skipped, since GNU
`getopt` moves them behind the options; `--` ends the options. An unknown option
and a missing argument are returned as `?`.
-/

namespace Getopt

/-- An option and `optarg`. -/
abbrev Opt := Char × Option (List Char)

/-- Whether `c` is an option of the option string, and whether it takes an argument. -/
def takesArgument : List Char → Char → Option Bool
  | [], _ => none
  | o :: rest, c =>
    if o = c ∧ c ≠ ':' ∧ c ≠ ';' then some (rest.head? = some ':') else takesArgument rest c

/-- The options of one element; the last one may still need the next element. -/
def cluster (optstring : List Char) : List Char → List Opt × Option Char
  | [] => ([], none)
  | c :: cs =>
    let r := cluster optstring cs
    match takesArgument optstring c with
    | none => (('?', none) :: r.1, r.2)
    | some false => ((c, none) :: r.1, r.2)
    | some true => if cs = [] then ([], some c) else ([(c, some cs)], none)

/-- The options of the elements, behind an option that needs the next element. -/
def scan (optstring : List Char) : Option Char → List (List Char) → List Opt
  | none, [] => []
  | some _, [] => [('?', none)]
  | some c, optarg :: args => (c, some optarg) :: scan optstring none args
  | none, arg :: args =>
    if arg = ['-', '-'] then []
    else if arg.head? = some '-' ∧ arg ≠ ['-'] then
      let r := cluster optstring arg.tail
      r.1 ++ scan optstring r.2 args
    else scan optstring none args

def getopt (optstring : List Char) (args : List (List Char)) : List Opt := scan optstring none args

/-! ## Arguments -/

variable {optstring : List Char}

/-- An option that takes an argument has one. -/
def HasArgument (optstring : List Char) (o : Opt) : Prop :=
  takesArgument optstring o.1 = some true → o.2 ≠ none

theorem cluster_hasArgument (hq : takesArgument optstring '?' ≠ some true) (cs : List Char) :
    ∀ o ∈ (cluster optstring cs).1, HasArgument optstring o := by
  induction cs with
  | nil => simp [cluster]
  | cons c cs ih =>
    rw [cluster]
    cases hc : takesArgument optstring c with
    | none => exact List.forall_mem_cons.mpr ⟨fun h => absurd h hq, ih⟩
    | some b =>
      cases b with
      | false => exact List.forall_mem_cons.mpr ⟨fun h => by simp [hc] at h, ih⟩
      | true =>
        by_cases hcs : cs = []
        · simp [hcs]
        · simp [hcs, HasArgument]

theorem scan_hasArgument (hq : takesArgument optstring '?' ≠ some true) (pending : Option Char)
    (args : List (List Char)) : ∀ o ∈ scan optstring pending args, HasArgument optstring o := by
  induction args generalizing pending with
  | nil =>
    cases pending with
    | none => simp [scan]
    | some c => exact List.forall_mem_singleton.mpr fun h => absurd h hq
  | cons arg args ih =>
    cases pending with
    | some c => exact List.forall_mem_cons.mpr ⟨fun _ => by simp, ih none⟩
    | none =>
      rw [scan]
      split_ifs with hend hopt
      · simp
      · exact List.forall_mem_append.mpr ⟨cluster_hasArgument hq _, ih _⟩
      · exact ih none

/-- **Every option that takes an argument is returned with one.** -/
theorem getopt_hasArgument (hq : takesArgument optstring '?' ≠ some true)
    (args : List (List Char)) : ∀ o ∈ getopt optstring args, HasArgument optstring o :=
  scan_hasArgument hq none args

example : getopt ['t', ':', 'q'] [['-', 'q', 't', 'a'], ['b'], ['-', 't'], ['c']] =
    [('q', none), ('t', some ['a']), ('t', some ['c'])] := by decide

end Getopt
