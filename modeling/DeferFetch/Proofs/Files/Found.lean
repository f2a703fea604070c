/-
# DeferFetch.Proofs.Files.Found — how often a file is found.

A path to a file stands for that file, and a path to a directory for files below it. Neither stands for a
file twice (`FileTree.Sound.found_once`). So a file that is found several times is one that several paths
have in common.
-/
import Mathlib.Data.List.Basic
import DeferFetch.Files.Search

namespace DeferFetch.FileTree

variable {t : FileTree}

/-- **`t.Sound`** — no two files have the same names, and no file has those of a directory. -/
structure Sound (t : FileTree) : Prop where
  once : (t.files.map Prod.fst).Nodup
  apart : ∀ d ∈ t.directories, t.isFile d = false

/-- **`t.found extensions path`** — the files that a path stands for. -/
def found (t : FileTree) (extensions : List String) (path : String) : List FoundFile :=
  (t.search extensions path).filterMap Except.toOption

theorem searchAll_fst (t : FileTree) (extensions paths : List String) :
    (t.searchAll extensions paths).1 = paths.flatMap (t.found extensions) := by
  simp only [searchAll, List.filterMap_flatMap]
  rfl

/-- Only files are found below a directory, each under its own names. -/
theorem names_of_resultAt {extensions names below : List String} {path : String} {f : FoundFile}
    (h : (t.resultAt extensions path names below).bind Except.toOption = some f) :
    f.names = names ++ below ∧ t.isFile (names ++ below) = true := by
  unfold resultAt at h
  by_cases file : t.isFile (names ++ below) = true
  · refine ⟨?_, file⟩
    simp only [file, if_true] at h
    split at h
    · cases h
    · split at h
      · obtain rfl := Option.some.inj h
        rfl
      · cases h
  · simp only [file] at h
    split at h
    · cases h
    · obtain ⟨result, hr, hf⟩ := Option.bind_eq_some_iff.1 h
      obtain ⟨cause, -, rfl⟩ := Option.map_eq_some_iff.1 hr
      cases hf

namespace Sound

/-- No two entries are the same file. -/
theorem pairwise_entries (sound : t.Sound) :
    (t.files.map Prod.fst ++ t.directories).Pairwise fun a b => t.isFile a → t.isFile b → a ≠ b := by
  have directory {d : List String} (hd : d ∈ t.directories) : ¬ t.isFile d = true := by
    simp [sound.apart d hd]
  refine List.pairwise_append.2 ⟨?_, ?_, ?_⟩
  · exact sound.once.imp fun distinct _ _ => distinct
  · exact List.pairwise_of_forall_mem_list fun d hd _ _ file => absurd file (directory hd)
  · exact fun _ _ d hd _ file => absurd file (directory hd)

/-- **A path stands for each file once.** -/
theorem found_once (sound : t.Sound) (extensions : List String) (path : String) :
    (t.found extensions path).Pairwise fun a b => a.names ≠ b.names := by
  unfold found search
  split
  · exact .nil
  · rename_i names _
    split
    · exact List.pairwise_singleton _ _
    · -- which of two entries is listed first makes no difference, so the order of the listing does not either
      rw [List.filterMap_filterMap, List.pairwise_filterMap, entriesBelow,
        (List.mergeSort_perm _ _).pairwise_iff fun hab b hb a ha same => hab a ha b hb same.symm,
        List.pairwise_filterMap]
      have whole {entry below : List String}
          (h : (if names.isPrefixOf entry && entry ≠ names then some (entry.drop names.length) else none) =
            some below) : names ++ below = entry := by
        obtain ⟨inside, rest⟩ := Option.ite_none_right_eq_some.1 h
        obtain rfl := Option.some.inj rest
        rw [Bool.and_eq_true, List.isPrefixOf_iff_prefix] at inside
        exact List.prefix_iff_eq_append.1 inside.1
      refine sound.pairwise_entries.imp fun distinct below hb below' hb' f hf f' hf' => ?_
      obtain ⟨hn, file⟩ := names_of_resultAt hf
      obtain ⟨hn', file'⟩ := names_of_resultAt hf'
      rw [whole hb] at hn file
      rw [whole hb'] at hn' file'
      rw [hn, hn']
      exact distinct file file'

/-- **Paths without a common file** stand for each file once. -/
theorem searchAll_once (sound : t.Sound) (extensions : List String) {paths : List String}
    (disjoint : paths.Pairwise fun p q =>
      ∀ a ∈ t.found extensions p, ∀ b ∈ t.found extensions q, a.names ≠ b.names) :
    (t.searchAll extensions paths).1.Pairwise fun a b => a.names ≠ b.names := by
  rw [searchAll_fst, List.pairwise_flatMap]
  exact ⟨fun path _ => sound.found_once extensions path, disjoint⟩

end Sound

end DeferFetch.FileTree
