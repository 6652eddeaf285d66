/-
Bpfsnoop.Trace.FlameGraph — folding stacks.

`AddStack` merges a stack into a tree of frames, and `generateFoldedStacks`
walks the tree and outputs a line for each frame that has samples of its own.
The walk hands the path to the frames below as a slice that is appended to at
each of them, so that siblings write to the same cells.
`traverse_spec` says that the lines are nevertheless those of the paths as
values (`entries`), whatever room the arrays have.

The values are integers without bound; those of the source are an `int` of
64 bits, which does not wrap as long as the values added sum up to less than
2^63.
-/
import Bpfsnoop.Lib.SharedSlices

namespace Bpfsnoop.Trace

open Lib

/-! ## The tree -/

/-- `StackFrame`. -/
inductive StackFrame where
  | mk (name : String) (value : Int) (children : List StackFrame)

namespace StackFrame

def name : StackFrame → String
  | mk name _ _ => name

def value : StackFrame → Int
  | mk _ value _ => value

def children : StackFrame → List StackFrame
  | mk _ _ children => children

@[simp] theorem name_mk (name : String) (value : Int) (children : List StackFrame) :
    (mk name value children).name = name := rfl

@[simp] theorem value_mk (name : String) (value : Int) (children : List StackFrame) :
    (mk name value children).value = value := rfl

@[simp] theorem children_mk (name : String) (value : Int) (children : List StackFrame) :
    (mk name value children).children = children := rfl

/-- `frame.Value += value`. -/
def addValue (frame : StackFrame) (value : Int) : StackFrame := mk frame.name (frame.value + value) frame.children

end StackFrame

/-- The loop over the children of a frame: the child of that name, or a new
one, goes on with `descend`. -/
def addToChild (descend : StackFrame → StackFrame) (frame : String) (value : Int) :
    List StackFrame → List StackFrame
  | [] => [descend (.mk frame value [])]
  | child :: children =>
    if child.name = frame then descend (child.addValue value) :: children
    else child :: addToChild descend frame value children

/-- The loop over the frames of a stack. -/
def addFrames (value : Int) : List String → StackFrame → StackFrame
  | [], current => current
  | frame :: stack, current =>
    .mk current.name current.value (addToChild (addFrames value stack) frame value current.children)

/-- `FlameGraph`. -/
structure FlameGraph where
  rootFrame : StackFrame
  totalValue : Int

def newFlameGraph : FlameGraph where
  rootFrame := .mk "root" 0 []
  totalValue := 0

/-- `AddStack`. -/
def FlameGraph.addStack (fg : FlameGraph) (stack : List String) (value : Int) : FlameGraph :=
  if stack.length = 0 then fg
  else
    { rootFrame := addFrames value stack (fg.rootFrame.addValue value)
      totalValue := fg.totalValue + value }

/-! ## The walk -/

/-- `strings.Join`. -/
def join (sep : String) : List String → String
  | [] => ""
  | [name] => name
  | name :: names => name ++ sep ++ join sep names

/-- `fmt.Sprintf("%s %d", strings.Join(path, ";"), selfValue)`. -/
def foldedLine (path : List String) (selfValue : Int) : String := join ";" path ++ " " ++ toString selfValue

/-- The samples of a frame that are not those of its children. -/
def selfValue (value : Int) (children : List StackFrame) : Int :=
  children.foldl (fun selfValue child => selfValue - child.value) value

/-- The memory of the paths, and the lines so far. -/
structure Folding where
  arrays : Arrays String
  foldedStacks : List String

section Traverse

variable (grow : Nat → Nat)

mutual

/-- `traverse`. -/
def traverse : StackFrame → SharedSlice → Folding → Folding
  | .mk name value children, path, st =>
    if name ≠ "root" then
      let (arrays, currentPath) := path.append grow st.arrays name
      let foldedStacks :=
        if selfValue value children > 0 then
          st.foldedStacks ++ [foldedLine (currentPath.content arrays) (selfValue value children)]
        else st.foldedStacks
      traverseAll children currentPath ⟨arrays, foldedStacks⟩
    else traverseAll children path st

/-- Its loop over the children. -/
def traverseAll : List StackFrame → SharedSlice → Folding → Folding
  | [], _, st => st
  | child :: children, path, st => traverseAll children path (traverse child path st)

end

/-- `generateFoldedStacks`. The first path is `[]string{}`. -/
def FlameGraph.generateFoldedStacks (fg : FlameGraph) : List String :=
  (traverse grow fg.rootFrame ⟨0, 0⟩ ⟨[[]], []⟩).foldedStacks

end Traverse

/-! ## The walk with paths as values -/

mutual

/-- The paths with samples of their own, and how many. -/
def entries : StackFrame → List String → List (List String × Int)
  | .mk name value children, path =>
    if name ≠ "root" then
      (if selfValue value children > 0 then [(path ++ [name], selfValue value children)] else [])
        ++ entriesAll children (path ++ [name])
    else entriesAll children path

def entriesAll : List StackFrame → List String → List (List String × Int)
  | [], _ => []
  | child :: children, path => entries child path ++ entriesAll children path

end

/-- The line of an entry. -/
def entryLine (entry : List String × Int) : String := foldedLine entry.1 entry.2

/-- What a walk from a path does: the path is kept, and the lines are those
of the entries. -/
structure Walks (path : SharedSlice) (st st' : Folding) (entries : List (List String × Int)) : Prop where
  path : path.Extends st.arrays st'.arrays
  lines : st'.foldedStacks = st.foldedStacks ++ entries.map entryLine

theorem Walks.trans {path : SharedSlice} {st st' st'' : Folding} {l l' : List (List String × Int)}
    (h : Walks path st st' l) (h' : Walks path st' st'' l') : Walks path st st'' (l ++ l') where
  path := h.path.trans h'.path
  lines := by rw [h'.lines, h.lines, List.map_append, List.append_assoc]

section Spec

variable {grow : Nat → Nat}

mutual

/-- **The walk keeps the path and outputs the entries below it.** -/
theorem traverse_spec (frame : StackFrame) (path : SharedSlice) (st : Folding) (hpath : path.Valid st.arrays) :
    Walks path st (traverse grow frame path st) (entries frame (path.content st.arrays)) := by
  cases frame with
  | mk name value children =>
    rw [traverse, entries]
    by_cases hroot : name ≠ "root"
    · rw [if_pos hroot, if_pos hroot]
      have hvalid : (path.append grow st.arrays name).2.Valid (path.append grow st.arrays name).1 :=
        SharedSlice.append_valid hpath
      have hcontent : (path.append grow st.arrays name).2.content (path.append grow st.arrays name).1
          = path.content st.arrays ++ [name] := SharedSlice.append_content hpath
      have hext : ∀ h', SharedSlice.Extends (path.append grow st.arrays name).2 (path.append grow st.arrays name).1 h' →
          SharedSlice.Extends path st.arrays h' := fun _ => SharedSlice.append_extends hpath
      generalize path.append grow st.arrays name = appended at hvalid hcontent hext
      have hall := traverseAll_spec children appended.2 ⟨appended.1, if selfValue value children > 0 then
        st.foldedStacks ++ [foldedLine (appended.2.content appended.1) (selfValue value children)]
        else st.foldedStacks⟩ hvalid
      refine ⟨hext _ hall.path, ?_⟩
      rw [← hcontent, List.map_append, ← List.append_assoc]
      refine hall.lines.trans (congrArg (· ++ _) ?_)
      dsimp only
      split
      · rfl
      · rw [List.map_nil, List.append_nil]
    · rw [if_neg hroot, if_neg hroot]
      exact traverseAll_spec children path st hpath

theorem traverseAll_spec (children : List StackFrame) (path : SharedSlice) (st : Folding)
    (hpath : path.Valid st.arrays) :
    Walks path st (traverseAll grow children path st) (entriesAll children (path.content st.arrays)) := by
  cases children with
  | nil =>
    rw [traverseAll, entriesAll]
    exact ⟨.refl _ _, by rw [List.map_nil, List.append_nil]⟩
  | cons child children =>
    have hchild := traverse_spec child path st hpath
    have hrest := traverseAll_spec children path (traverse grow child path st) (hchild.path.valid hpath)
    rw [traverseAll, entriesAll]
    rw [hchild.path.content] at hrest
    exact hchild.trans hrest

end

/-- What is output, whatever the growth of arrays. -/
theorem generateFoldedStacks_eq (fg : FlameGraph) :
    fg.generateFoldedStacks grow = (entries fg.rootFrame []).map entryLine :=
  (traverse_spec fg.rootFrame ⟨0, 0⟩ ⟨[[]], []⟩ ⟨Nat.zero_lt_one, Nat.zero_le _⟩).lines

end Spec

end Bpfsnoop.Trace
