import ModuleLoader.Proofs.Path.Spelling
import ModuleLoader.Source.Bundle
import ModuleLoader.Source.Memory

/-! Sources under spellings. A source that keeps its files under normal forms knows each file by all
the spellings of its path. -/

namespace ModuleLoader

/-- A source that takes all spellings of a path for one. Its errors may tell them apart. -/
structure FileSource.RespectsPaths (source : FileSource Id) : Prop where
  existsFile {p q : Path} : p.components = q.components → source.existsFile p = source.existsFile q
  existsDir {p q : Path} : p.components = q.components → source.existsDir p = source.existsDir q
  read {p q : Path} : p.components = q.components →
    Except.toOption (source.read p) = Except.toOption (source.read q)

namespace Bundle

theorem find?_congr (b : Bundle) {p q : Path} (h : p.components = q.components) :
    b.find? p = b.find? q := by
  rw [find?, find?, key?, key?, canonical?_congr h]

theorem existsFile_congr (b : Bundle) {p q : Path} (h : p.components = q.components) :
    b.existsFile p = b.existsFile q := by
  rw [existsFile, existsFile, b.find?_congr h]

theorem existsDir_congr (b : Bundle) {p q : Path} (h : p.components = q.components) :
    b.existsDir p = b.existsDir q := by
  have hm : ∀ name : String, b.existsFile (p.joinText name) = b.existsFile (q.joinText name) :=
    fun name => b.existsFile_congr (Path.joinText_congr h name)
  simp only [existsDir, hm]

theorem toOption_read_congr (b : Bundle) {p q : Path} (h : p.components = q.components) :
    Except.toOption (b.read p) = Except.toOption (b.read q) := by
  unfold Bundle.read
  rw [b.find?_congr h]
  cases b.find? q <;> rfl

theorem toSource_respectsPaths (b : Bundle) : FileSource.RespectsPaths b.toSource where
  existsFile h := congrArg pure (b.existsFile_congr h)
  existsDir h := congrArg pure (b.existsDir_congr h)
  read h := by
    dsimp only [toSource, pure]
    exact b.toOption_read_congr h

end Bundle

namespace MemoryFiles

theorem key_congr {p q : Path} (h : p.components = q.components) : key p = key q := by
  rw [key, key, locate, locate, Path.normalize?_congr (Path.join_congr_right h ⟨"/"⟩)]

theorem existsFile_congr (fs : MemoryFiles) {p q : Path} (h : p.components = q.components) :
    fs.existsFile p = fs.existsFile q := by
  rw [existsFile, existsFile, key_congr h]

theorem existsDir_congr (fs : MemoryFiles) {p q : Path} (h : p.components = q.components) :
    fs.existsDir p = fs.existsDir q := by
  rw [existsDir, existsDir, key_congr h]

theorem toOption_read_congr (fs : MemoryFiles) {p q : Path} (h : p.components = q.components) :
    Except.toOption (fs.read p) = Except.toOption (fs.read q) := by
  unfold MemoryFiles.read
  rw [key_congr h]
  cases fs.files.lookup (key q) with
  | none => rfl
  | some content => cases content <;> rfl

theorem toSource_respectsPaths (fs : MemoryFiles) : FileSource.RespectsPaths fs.toSource where
  existsFile h := congrArg pure (fs.existsFile_congr h)
  existsDir h := congrArg pure (fs.existsDir_congr h)
  read h := by
    dsimp only [toSource, pure]
    exact fs.toOption_read_congr h

end MemoryFiles

end ModuleLoader
