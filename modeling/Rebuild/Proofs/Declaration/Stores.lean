import Mathlib
import Rebuild.Artifact.Writer
import Rebuild.Proofs.Declaration.Interning
import Rebuild.Proofs.Text.Split

/-! Stores of artifacts, in which all types that can be found are known beforehand. Main statement:
if no type of a store is in a package that has the name of another type, its names are a clear
vocabulary. -/
namespace Rebuild

open Name (Plain)

namespace Table

/-- The packages around a name end before its dots. -/
theorem packagePrefixes_boundary {qualified : String} (hdot : qualified.toList.head? ≠ some '.')
    {segments : List String} (lead : List Char) (hlead : qualified.toList =
      lead ++ (if lead = [] then [] else ['.']) ++ ['.'].intercalate (segments.map String.toList))
    {p : String × String} (hp : p ∈ packagePrefixes qualified lead.length segments) :
    p.1 = qualified ∨ p.1.toList ++ ['.'] <+: qualified.toList := by
  induction segments generalizing lead with
  | nil => cases hp
  | cons segment rest ih =>
    obtain ⟨next, hnext⟩ : ∃ next, next = lead ++ (if lead = [] then [] else ['.']) ++
      segment.toList := ⟨_, rfl⟩
    have hlength : (if lead.length = 0 then segment.length else lead.length + 1 + segment.length) =
        next.length := by
      cases lead <;> simp [hnext, String.length_toList]
      omega
    rw [packagePrefixes, hlength, List.mem_cons] at hp
    cases rest with
    | nil =>
      have hall : qualified.toList = next := by simpa [hnext] using hlead
      obtain rfl : p = _ := by simpa [packagePrefixes] using hp
      exact .inl (String.ext (by simp [hall]))
    | cons segment' rest =>
      have hmore : qualified.toList =
          next ++ '.' :: ['.'].intercalate ((segment' :: rest).map String.toList) := by
        simpa [hnext] using hlead
      rcases hp with rfl | hp
      · exact .inr ⟨_, by simp [hmore]; rfl⟩
      · refine ih next ?_ hp
        have hne : next ≠ [] := by
          rintro h
          simp [hmore, h] at hdot
        rw [if_neg hne]
        simpa using hmore

end Table

/-- The package of a name ends before a dot. -/
theorem Name.packageOf_prefix {binary : String} (h : packageOf binary ≠ "") :
    (packageOf binary).toList ++ ['.'] <+: binary.toList := by
  have hfront : throughLast '.' binary.toList <+: binary.toList := by
    rw [throughLast, ← List.reverse_suffix, List.reverse_reverse]
    exact List.dropWhile_suffix _
  cases hrest : binary.toList.reverse.dropWhile (· ≠ '.') with
  | nil =>
    have hnone : throughLast '.' binary.toList = [] := by rw [throughLast, hrest, List.reverse_nil]
    exact absurd (by simp [packageOf, hnone]) h
  | cons c rest =>
    have hc : c = '.' := by
      have := List.head?_dropWhile_not (· ≠ '.') binary.toList.reverse
      rw [hrest] at this
      simpa using this
    have hthrough : throughLast '.' binary.toList = rest.reverse ++ ['.'] := by
      rw [throughLast, hrest, List.reverse_cons, hc]
    rw [hthrough] at hfront
    simpa [packageOf, hthrough] using hfront

/-- So do all packages around it, but for the unnamed one. -/
theorem packagesAround_prefix {binary q : String} (hdot : binary.toList.head? ≠ some '.')
    (hq : q ∈ packagesAround (Name.packageOf binary)) :
    q = "" ∨ q.toList ++ ['.'] <+: binary.toList := by
  rcases List.mem_cons.mp hq with rfl | hq
  · exact .inl rfl
  obtain ⟨p, hp, rfl⟩ := List.mem_map.mp hq
  by_cases hempty : Name.packageOf binary = ""
  · rw [hempty] at hp
    obtain rfl : p = ("", "") := by
      simpa [Text.split, Text.splitChars, Table.packagePrefixes] using hp
    exact .inl rfl
  have hboundary := Name.packageOf_prefix hempty
  have hhead : (Name.packageOf binary).toList.head? ≠ some '.' := by
    intro h
    obtain ⟨rest, hrest⟩ := hboundary
    cases hchars : (Name.packageOf binary).toList <;> simp_all [← hrest]
  rcases Table.packagePrefixes_boundary hhead []
    (by simp [Text.split, Text.intercalate_splitChars, Function.comp_def]) hp with h | h
  · exact .inr (h ▸ hboundary)
  · exact .inr (h.trans ((List.prefix_append _ _).trans hboundary))

namespace ArtifactStore

/-- A store with an artifact for each of some types, given by their internal names. -/
def ofTypes (names : List String) : ArtifactStore :=
  { artifacts := .ofList (names.map fun name =>
      (name, some (Artifact.ClassDescription.encode { thisClass := name }))) }

theorem mem_keys_ofTypes {names : List String} {name : String} :
    name ∈ (ofTypes names).artifacts.keys ↔ name ∈ names := by
  have hfold (entries : List (String × Option (List UInt8)))
      (d : Dict String (Option (List UInt8))) :
      name ∈ (entries.foldl (fun d e => d.put e.1 e.2) d).keys ↔
        name ∈ d.keys ∨ name ∈ entries.map Prod.fst := by
    induction entries generalizing d with
    | nil => simp
    | cons e rest ih =>
      rw [List.foldl_cons, ih, Dict.mem_keys_put, List.map_cons, List.mem_cons]
      tauto
  simp [ofTypes, Dict.ofList, hfold, Dict.mem_keys_iff]

theorem find_of_not_mem {s : ArtifactStore} {name : String}
    (h : name ∉ s.artifacts.keys) : (finder.find name s).1 = none := by
  have hnone : s.artifacts.get? name = none := by simpa [Dict.mem_keys_iff] using h
  simp [finder, find, hnone]

/-- Types go by the names of artifacts, packages by other names. -/
def vocabulary (s : ArtifactStore) : Vocabulary where
  word := Plain
  type binary := Name.toInternal binary ∈ s.artifacts.keys
  package q := Plain q ∧ Name.toInternal q ∉ s.artifacts.keys

/-- Names are plain, and no type is in a package that has the name of another. -/
structure Ordinary (s : ArtifactStore) : Prop where
  plain : ∀ name ∈ s.artifacts.keys, Plain name
  nonempty : ∀ name ∈ s.artifacts.keys, name ≠ "" ∧ name.toList.head? ≠ some '/'
  apart : ∀ name ∈ s.artifacts.keys, ∀ other ∈ s.artifacts.keys,
    ¬ name.toList ++ ['/'] <+: other.toList

theorem ordinary_ofTypes {names : List String} (hplain : ∀ name ∈ names, Plain name)
    (hnonempty : ∀ name ∈ names, name ≠ "" ∧ name.toList.head? ≠ some '/')
    (hapart : ∀ name ∈ names, ∀ other ∈ names, ¬ name.toList ++ ['/'] <+: other.toList) :
    (ofTypes names).Ordinary where
  plain name h := hplain name (mem_keys_ofTypes.mp h)
  nonempty name h := hnonempty name (mem_keys_ofTypes.mp h)
  apart name h other h' := hapart name (mem_keys_ofTypes.mp h) other (mem_keys_ofTypes.mp h')

theorem plain_of_toInternal {binary : String} (h : Plain (Name.toInternal binary)) :
    Plain binary := by
  intro c hc hmark
  have hne : c ≠ '.' := by
    rintro rfl
    simp [Name.marks] at hmark
  refine h c ?_ hmark
  simp only [Name.toInternal, String.toList_ofList, List.mem_map]
  exact ⟨c, hc, by simp [hne]⟩

variable {s : ArtifactStore}

theorem Ordinary.clear (h : s.Ordinary) : s.vocabulary.Clear where
  word_plain _ hw := hw
  type_plain _ hb := plain_of_toInternal (h.plain _ hb)
  package_plain _ hq := hq.1
  apart _ hb hq := hq.2 hb

theorem Ordinary.covers (h : s.Ordinary) :
    s.vocabulary.Covers finder fun s' => s'.artifacts = s.artifacts where
  find_world _ _ hs' := hs'
  type_found s' binary hs' hfound := by
    change Name.toInternal binary ∈ s.artifacts.keys
    rw [← hs', Dict.mem_keys_iff, Option.isSome_iff_ne_none]
    intro hnone
    simp [Finder.classFile?, finder, find, hnone] at hfound
  package_around binary hb q hq := by
    have hplain : Plain binary := plain_of_toInternal (h.plain _ hb)
    have hdot : binary.toList.head? ≠ some '.' := by
      intro hhead
      refine (h.nonempty _ hb).2 ?_
      simp [Name.toInternal, hhead]
    rcases packagesAround_prefix hdot hq with rfl | hfront
    · exact ⟨by simp [Plain], fun hempty => (h.nonempty _ hempty).1 rfl⟩
    · constructor
      · exact fun c hc => hplain c (hfront.subset (by simp [hc]))
      · intro hq
        refine h.apart _ hq _ hb ?_
        have := hfront.map fun c => if c = '.' then '/' else c
        simpa [Name.toInternal] using this

end ArtifactStore

end Rebuild
