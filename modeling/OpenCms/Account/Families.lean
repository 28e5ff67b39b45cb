import Mathlib.Data.List.Sort
import Mathlib.Data.List.Infix

/-!
# Families

An account belongs to a family, which is the provider that it is an account of. Older versions of
the program also had provider ids made of a family and the name of an account in it, and
`resolveFamilyFromKnown` finds the family that such an id begins with.
-/

namespace OpenCms

def startsWith (s start : String) : Bool := start.toList.isPrefixOf s.toList

namespace Account

def isLineTerminator (c : Char) : Bool :=
  c = '\n' || c = '\r' || c = '\u2028' || c = '\u2029'

/-- The first group of a match of `^(.+)-(api|subscription)-`: the longest start of the id that is
followed by one of the two. -/
def accountIdMatch (id : String) : Option String :=
  let chars := id.toList
  let lengths := ((List.range chars.length).map (· + 1)).reverse
  (lengths.find? fun n =>
    !(chars.take n).any isLineTerminator &&
      ("-api-".toList.isPrefixOf (chars.drop n) ||
        "-subscription-".toList.isPrefixOf (chars.drop n))).map
    fun n => String.ofList (chars.take n)

def resolveFamilyFromKnown (providerId : String) (knownFamilies : List String) : Option String :=
  if providerId = "" then none
  else
    let unique := (knownFamilies.filter (· ≠ "")).eraseDups
    -- an exact family, the family of an account id, or that of a provider instance
    if providerId ∈ unique then some providerId
    else
      match (accountIdMatch providerId).filter (· ∈ unique) with
      | some family => some family
      | none =>
        let sorted := unique.insertionSort fun a b => b.length ≤ a.length
        sorted.find? fun family => startsWith providerId (family ++ "-")

theorem mem_of_resolveFamilyFromKnown {providerId family : String} {knownFamilies : List String}
    (h : resolveFamilyFromKnown providerId knownFamilies = some family) :
    family ∈ knownFamilies ∧ family ≠ "" := by
  have hunique : family ∈ (knownFamilies.filter (· ≠ "")).eraseDups →
      family ∈ knownFamilies ∧ family ≠ "" := by
    intro hmem
    obtain ⟨hknown, hne⟩ := List.mem_filter.mp (List.mem_eraseDups.mp hmem)
    exact ⟨hknown, by simpa using hne⟩
  unfold resolveFamilyFromKnown at h
  split at h
  · cases h
  · dsimp only at h
    split at h
    next hmem =>
      cases h
      exact hunique hmem
    next =>
      split at h
      next found hfound =>
        cases h
        exact hunique (by simpa using (Option.filter_eq_some_iff.mp hfound).2)
      next =>
        have hmem := List.mem_of_find?_eq_some h
        exact hunique ((List.perm_insertionSort _ _).mem_iff.mp hmem)

theorem resolveFamilyFromKnown_of_mem {family : String} {knownFamilies : List String}
    (hmem : family ∈ knownFamilies) (hne : family ≠ "") :
    resolveFamilyFromKnown family knownFamilies = some family := by
  have hunique : family ∈ (knownFamilies.filter (· ≠ "")).eraseDups :=
    List.mem_eraseDups.mpr (List.mem_filter.mpr ⟨hmem, by simpa using hne⟩)
  unfold resolveFamilyFromKnown
  rw [if_neg hne]
  exact if_pos hunique

end Account

end OpenCms
