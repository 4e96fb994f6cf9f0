/-
What writing does to a tree.

Two trees have the same places when they hold files under the same paths in
the same order, and know of the same folders: then a path leads to the same
place in both.  Writing keeps the places, changes what stands at the place
that the path leads to and at no other (`file?_write`).
-/
import Beautifier.Tool.FileTree

namespace Beautifier.FileTree

/-- Two trees hold files under the same paths, and know of the same folders. -/
structure SamePlaces (t u : FileTree) : Prop where
  paths : u.files.map (·.1) = t.files.map (·.1)
  folders : u.folders = t.folders

variable {t u v : FileTree} {path : String} {bytes : List UInt8} {l : Location}

theorem SamePlaces.refl (t : FileTree) : SamePlaces t t := ⟨rfl, rfl⟩

theorem SamePlaces.trans (htu : SamePlaces t u) (huv : SamePlaces u v) : SamePlaces t v :=
  ⟨huv.paths.trans htu.paths, huv.folders.trans htu.folders⟩

/-! ## Where paths lead -/

theorem isSome_file? (t : FileTree) (l : Location) :
    (t.file? l).isSome = (t.files.map (·.1)).any fun path => Location.ofPath path == l := by
  rw [file?, Option.isSome_map, List.any_map, Bool.eq_iff_iff, List.find?_isSome, List.any_eq_true]
  rfl

theorem SamePlaces.isSome_file? (h : SamePlaces t u) (l : Location) :
    (u.file? l).isSome = (t.file? l).isSome := by
  rw [FileTree.isSome_file?, FileTree.isSome_file?, h.paths]

theorem SamePlaces.isFolder (h : SamePlaces t u) (l : Location) : u.isFolder l = t.isFolder l := by
  have hbelow : ∀ w : FileTree, (w.files.any fun f => (Location.ofPath f.1).isBelow l)
      = (w.files.map (·.1)).any fun path => (Location.ofPath path).isBelow l := by
    intro w
    rw [List.any_map]
    rfl
  rw [FileTree.isFolder, FileTree.isFolder, hbelow, hbelow, h.paths, h.folders]

theorem SamePlaces.walk (h : SamePlaces t u) (l : Location) (names : List String) :
    u.walk l names = t.walk l names := by
  induction names generalizing l with
  | nil => rfl
  | cons name rest ih =>
      have herror : u.folderError? l = t.folderError? l := by
        rw [folderError?, folderError?, h.isFolder, h.isSome_file?]
      rw [FileTree.walk, FileTree.walk, herror]
      cases t.folderError? l with
      | some e => rfl
      | none => exact ih _

theorem SamePlaces.locate (h : SamePlaces t u) (path : String) : u.locate path = t.locate path := by
  rw [FileTree.locate, FileTree.locate, h.walk]

/-- A file that can be read stands where its path leads. -/
theorem read_eq_ok_iff :
    t.read path = .ok bytes ↔ ∃ l, t.locate path = .ok l ∧ t.file? l = some bytes := by
  rw [read]
  cases t.locate path with
  | error e => simp
  | ok l => cases hfile : t.file? l <;> simp [hfile]

/-! ## Writing -/

theorem samePlaces_write (t : FileTree) (path : String) (bytes : List UInt8) :
    SamePlaces t (t.write path bytes) := by
  rw [write]
  cases t.locate path with
  | error e => exact .refl t
  | ok l =>
      refine ⟨?_, rfl⟩
      rw [List.map_map]
      refine List.map_congr_left fun f _ => ?_
      dsimp only [Function.comp_apply]
      split <;> rfl

theorem find?_map_write (files : List (String × List UInt8)) (place l : Location)
    (bytes : List UInt8) :
    ((files.map fun f => if Location.ofPath f.1 == place then (f.1, bytes) else f).find?
        fun f => Location.ofPath f.1 == l).map (·.2)
      = ((files.find? fun f => Location.ofPath f.1 == l).map (·.2)).map fun old =>
          if place = l then bytes else old := by
  induction files with
  | nil => rfl
  | cons f files ih =>
      have hpath : (if Location.ofPath f.1 == place then (f.1, bytes) else f).1 = f.1 := by
        split <;> rfl
      rw [List.map_cons, List.find?_cons, List.find?_cons, hpath]
      by_cases hl : Location.ofPath f.1 = l
      · rw [beq_iff_eq.mpr hl]
        by_cases hplace : place = l
        · rw [beq_iff_eq.mpr (hl.trans hplace.symm)]
          simp [hplace]
        · have hne : Location.ofPath f.1 ≠ place := fun h => hplace (h.symm.trans hl)
          rw [beq_false_of_ne hne]
          simp [hplace]
      · rw [beq_false_of_ne hl]
        exact ih

/-- Writing changes the file that the path leads to and no other. -/
theorem file?_write (hlocate : t.locate path = .ok l) (hfile : (t.file? l).isSome = true)
    (place : Location) :
    (t.write path bytes).file? place = if l = place then some bytes else t.file? place := by
  rw [write, hlocate]
  show (List.find? _ (List.map _ _)).map _ = _
  rw [find?_map_write, ← file?]
  split
  · next heq =>
    subst heq
    obtain ⟨old, hold⟩ := Option.isSome_iff_exists.mp hfile
    rw [hold]
    rfl
  · exact Option.map_id' ..

end Beautifier.FileTree
