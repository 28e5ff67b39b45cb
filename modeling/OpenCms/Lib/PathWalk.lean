import Mathlib.Data.List.Induction
import Mathlib.Data.List.Infix

/-!
# Walking along a path

A path is a list of names, and a relative path is a list of hops: one level up, or down to a name.
From the top there is no way up. `OpenCms.PathWalk.climb` tells how a relative path comes out
without looking at where it starts: how many levels it climbs above the start, and which names it
goes down from there. So `OpenCms.PathWalk.prefix_walk_iff` says when it ends below its start: when
it climbs nowhere above it, or comes back to it by its own names.
-/

namespace OpenCms.PathWalk

/-- One step of a relative path. -/
inductive Hop (ν : Type*)
  | up
  | down (name : ν)
  deriving DecidableEq, Repr

variable {ν : Type*}

def hop (place : List ν) : Hop ν → List ν
  | .up => place.dropLast
  | .down name => place ++ [name]

def walk (start : List ν) (hops : List (Hop ν)) : List ν := hops.foldl hop start

/-- How far above the start a walk has come, and how it goes on from there. -/
def rise : ℕ × List ν → Hop ν → ℕ × List ν
  | (up, []), .up => (up + 1, [])
  | (up, name :: names), .up => (up, (name :: names).dropLast)
  | (up, names), .down name => (up, names ++ [name])

/-- How far above its start the hops lead, and which names they go down from there. -/
def climb (hops : List (Hop ν)) : ℕ × List ν := hops.foldl rise (0, [])

variable {start : List ν} {hops : List (Hop ν)}

theorem walk_append (start : List ν) (hops hops' : List (Hop ν)) :
    walk start (hops ++ hops') = walk (walk start hops) hops' := List.foldl_append

theorem hop_rise (start : List ν) (c : ℕ × List ν) (h : Hop ν) :
    hop (start.take (start.length - c.1) ++ c.2) h =
      start.take (start.length - (rise c h).1) ++ (rise c h).2 := by
  obtain ⟨up, names⟩ := c
  cases h with
  | down name => rw [rise, hop, List.append_assoc]
  | up =>
    cases names with
    | nil =>
      have hlen : (start.take (start.length - up)).length = start.length - up :=
        List.length_take_of_le (Nat.sub_le _ _)
      rw [rise, hop, List.append_nil, List.append_nil, List.dropLast_eq_take, hlen, List.take_take,
        Nat.min_eq_left (Nat.sub_le _ _), Nat.sub_sub]
    | cons name names =>
      rw [rise, hop, List.dropLast_append_of_ne_nil (List.cons_ne_nil name names)]

theorem walk_eq (start : List ν) (hops : List (Hop ν)) :
    walk start hops = start.take (start.length - (climb hops).1) ++ (climb hops).2 := by
  induction hops using List.reverseRecOn with
  | nil =>
    show start = start.take (start.length - 0) ++ []
    rw [Nat.sub_zero, List.take_length, List.append_nil]
  | append_singleton hops h ih =>
    have hclimb : climb (hops ++ [h]) = rise (climb hops) h := List.foldl_append
    rw [walk_append, ih, hclimb]
    exact hop_rise start (climb hops) h

/-- **A walk ends below its start exactly if it comes back to it**: by the names of the start above
which it has climbed, if it has. -/
theorem prefix_walk_iff :
    start <+: walk start hops ↔
      start.drop (start.length - (climb hops).1) <+: (climb hops).2 := by
  rw [walk_eq]
  nth_rewrite 1 [← List.take_append_drop (start.length - (climb hops).1) start]
  exact List.prefix_append_right_inj _

theorem prefix_walk_of_climb (h : (climb hops).1 = 0) : start <+: walk start hops := by
  rw [prefix_walk_iff, h, Nat.sub_zero, List.drop_length]
  exact List.nil_prefix

end OpenCms.PathWalk
