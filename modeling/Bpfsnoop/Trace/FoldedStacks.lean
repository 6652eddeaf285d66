/-
Bpfsnoop.Trace.FoldedStacks — what a flame graph folds to.

A frame of the tree stands for the stacks that pass through it. `Holds` says
so of a frame and what the stacks still have below it: its value is their
number, and it has a child for each name that one of them goes on with. A
stack more keeps this (`addFrames_holds`), and it determines what a walk
outputs, as long as no frame has the name of the root (`entries_iff`).
`folding_iff` says that such frames are all that goes wrong.
-/
import Bpfsnoop.Trace.FlameGraph
import Mathlib.Algebra.BigOperators.Group.List.Lemmas
import Mathlib.Data.List.Dedup

namespace Bpfsnoop.Trace

/-! ## Stacks below a frame -/

/-- What the stacks have below a frame of that name. -/
def below (frame : String) : List (List String) → List (List String)
  | [] => []
  | [] :: added => below frame added
  | (name :: rest) :: added => if name = frame then rest :: below frame added else below frame added

section Below

variable {frame : String} {added : List (List String)} {s : List String}

@[simp] theorem below_append (frame : String) (added added' : List (List String)) :
    below frame (added ++ added') = below frame added ++ below frame added' := by
  induction added with
  | nil => rfl
  | cons s added ih =>
    cases s with
    | nil => simpa [below] using ih
    | cons name rest => by_cases hname : name = frame <;> simp [below, hname, ih]

theorem mem_below : s ∈ below frame added ↔ frame :: s ∈ added := by
  induction added with
  | nil => simp [below]
  | cons s' added ih =>
    cases s' with
    | nil => simpa [below] using ih
    | cons name rest =>
      by_cases hname : name = frame
      · simp [below, hname, ih]
      · simp [below, hname, ih, Ne.symm hname]

theorem count_below : (below frame added).count s = added.count (frame :: s) := by
  induction added with
  | nil => rfl
  | cons s' added ih =>
    cases s' with
    | nil => simpa [below] using ih
    | cons name rest => by_cases hname : name = frame <;> simp [below, hname, ih, List.count_cons]

end Below

/-! ## The tree -/

/-- The frame stands for these stacks. -/
inductive Holds : List (List String) → StackFrame → Prop
  | mk {added : List (List String)} {name : String} {value : Int} {children : List StackFrame}
    (hvalue : value = added.length)
    (hnames : (children.map (·.name)).Nodup)
    (hheads : ∀ frame, frame ∈ children.map (·.name) ↔ below frame added ≠ [])
    (hchildren : ∀ child ∈ children, Holds (below child.name added) child) :
    Holds added (.mk name value children)

@[simp] theorem addFrames_name (value : Int) (stack : List String) (frame : StackFrame) :
    (addFrames value stack frame).name = frame.name := by
  cases stack with
  | nil => rfl
  | cons name stack => rfl

@[simp] theorem addValue_name (frame : StackFrame) (value : Int) : (frame.addValue value).name = frame.name := rfl

section AddToChild

variable {descend : StackFrame → StackFrame} {frame : String} {value : Int} {children : List StackFrame}

theorem addToChild_names (hdescend : ∀ f, (descend f).name = f.name) :
    (addToChild descend frame value children).map (·.name)
      = if frame ∈ children.map (·.name) then children.map (·.name) else children.map (·.name) ++ [frame] := by
  induction children with
  | nil => simp [addToChild, hdescend]
  | cons child children ih =>
    by_cases hname : child.name = frame
    · simp [addToChild, hname, hdescend]
    · rw [addToChild, if_neg hname, List.map_cons, ih, List.map_cons]
      simp only [List.mem_cons, Ne.symm hname, false_or]
      split
      · rfl
      · rfl

/-- The children afterwards: the others, the one of that name, or a new one. -/
theorem mem_addToChild (hnames : (children.map (·.name)).Nodup) {child' : StackFrame}
    (h : child' ∈ addToChild descend frame value children) :
    (child' ∈ children ∧ child'.name ≠ frame) ∨
    (∃ child ∈ children, child.name = frame ∧ child' = descend (child.addValue value)) ∨
    (frame ∉ children.map (·.name) ∧ child' = descend (.mk frame value [])) := by
  induction children with
  | nil => exact .inr (.inr ⟨List.not_mem_nil, List.mem_singleton.mp h⟩)
  | cons child children ih =>
    rw [List.map_cons, List.nodup_cons] at hnames
    by_cases hname : child.name = frame
    · rw [addToChild, if_pos hname] at h
      rcases List.mem_cons.mp h with rfl | hmem
      · exact .inr (.inl ⟨child, List.mem_cons_self, hname, rfl⟩)
      · refine .inl ⟨List.mem_cons_of_mem _ hmem, ?_⟩
        rintro hsame
        exact hnames.1 (List.mem_map.mpr ⟨child', hmem, hsame.trans hname.symm⟩)
    · rw [addToChild, if_neg hname] at h
      rcases List.mem_cons.mp h with rfl | hmem
      · exact .inl ⟨List.mem_cons_self, hname⟩
      · rcases ih hnames.2 hmem with ⟨hold, hne⟩ | ⟨old, hold, hsame, rfl⟩ | ⟨hnew, rfl⟩
        · exact .inl ⟨List.mem_cons_of_mem _ hold, hne⟩
        · exact .inr (.inl ⟨old, List.mem_cons_of_mem _ hold, hsame, rfl⟩)
        · refine .inr (.inr ⟨?_, rfl⟩)
          rw [List.map_cons, List.mem_cons, not_or]
          exact ⟨Ne.symm hname, hnew⟩

end AddToChild

/-- A frame that is new. -/
theorem holds_nil (name : String) : Holds [] (.mk name 0 []) :=
  .mk rfl List.nodup_nil (fun frame => by simp [below]) (fun child hchild => absurd hchild List.not_mem_nil)

/-- **A stack more.** -/
theorem addFrames_holds (s : List String) {added : List (List String)} {f : StackFrame} (h : Holds added f) :
    Holds (added ++ [s]) (addFrames 1 s (f.addValue 1)) := by
  induction s generalizing added f with
  | nil =>
    cases h with
    | mk hvalue hnames hheads hchildren =>
      have hsame (frame : String) : below frame (added ++ [[]]) = below frame added := by simp [below]
      refine .mk ?_ hnames (fun frame => by rw [hsame]; exact hheads frame) fun child hchild => ?_
      · simp [hvalue]
      · rw [hsame]
        exact hchildren child hchild
  | cons frame s ih =>
    cases h with
    | mk hvalue hnames hheads hchildren =>
      have hself : below frame (added ++ [frame :: s]) = below frame added ++ [s] := by simp [below]
      have hother {frame' : String} (hne : frame' ≠ frame) :
          below frame' (added ++ [frame :: s]) = below frame' added := by simp [below, Ne.symm hne]
      have hdescend (f : StackFrame) : (addFrames 1 s f).name = f.name := addFrames_name 1 s f
      refine .mk ?_ ?_ ?_ ?_
      · simp [StackFrame.addValue, hvalue]
      · rw [StackFrame.addValue, StackFrame.children_mk, addToChild_names hdescend, StackFrame.children_mk]
        split
        · exact hnames
        · rename_i hnew
          exact List.nodup_append.mpr ⟨hnames, List.nodup_singleton _, by
            intro a ha b hb hab
            rw [List.mem_singleton.mp hb] at hab
            exact hnew (hab ▸ ha)⟩
      · intro frame'
        rw [StackFrame.addValue, StackFrame.children_mk, addToChild_names hdescend, StackFrame.children_mk]
        by_cases hframe : frame' = frame
        · subst hframe
          rw [hself]
          split <;> simp_all
        · rw [hother hframe, ← hheads frame']
          split <;> simp [hframe]
      · intro child' hchild'
        rcases mem_addToChild hnames hchild' with ⟨hold, hne⟩ | ⟨child, hold, rfl, rfl⟩ | ⟨hnew, rfl⟩
        · rw [hother hne]
          exact hchildren child' hold
        · rw [addFrames_name, addValue_name, hself]
          exact ih (hchildren child hold)
        · have hnone : below frame added = [] := by
            by_contra hsome
            exact hnew ((hheads frame).mpr hsome)
          rw [addFrames_name, StackFrame.name_mk, hself, hnone]
          exact ih (holds_nil frame)

/-! ## Samples -/

/-- What the children have together. -/
def childrenValue (children : List StackFrame) : Int := children.foldr (fun child n => child.value + n) 0

theorem selfValue_eq (value : Int) (children : List StackFrame) :
    selfValue value children = value - childrenValue children := by
  induction children generalizing value with
  | nil => simp [selfValue, childrenValue]
  | cons child children ih =>
    have hcons : childrenValue (child :: children) = child.value + childrenValue children := rfl
    rw [hcons, ← Int.sub_sub, ← ih]
    rfl

theorem Holds.value {added : List (List String)} {f : StackFrame} (h : Holds added f) : f.value = added.length := by
  cases h with
  | mk hvalue => exact hvalue

/-- The stacks that go on with some other frame than these. -/
def outside (frames : List String) (added : List (List String)) : List (List String) :=
  added.filter fun s => ∀ frame ∈ s.head?, frame ∉ frames

theorem outside_cons_length {frame : String} {frames : List String} (hnew : frame ∉ frames)
    (added : List (List String)) :
    (outside frames added).length = (below frame added).length + (outside (frame :: frames) added).length := by
  induction added with
  | nil => rfl
  | cons s added ih =>
    cases s with
    | nil => simp_all [outside, below]; omega
    | cons name rest =>
      by_cases hname : name = frame
      · simp_all [outside, below]; omega
      · by_cases hframes : name ∈ frames <;> simp_all [outside, below]; omega

section Children

variable {added : List (List String)} {children : List StackFrame}

theorem childrenValue_add_outside (hnames : (children.map (·.name)).Nodup)
    (hchildren : ∀ child ∈ children, Holds (below child.name added) child) :
    childrenValue children + (outside (children.map (·.name)) added).length = added.length := by
  induction children with
  | nil => simp [childrenValue, outside]
  | cons child children ih =>
    rw [List.map_cons, List.nodup_cons] at hnames
    have hrest := ih hnames.2 fun c hc => hchildren c (List.mem_cons_of_mem _ hc)
    have hvalue := (hchildren child List.mem_cons_self).value
    have hsplit := outside_cons_length hnames.1 added
    have hcons : childrenValue (child :: children) = child.value + childrenValue children := rfl
    rw [List.map_cons, hcons]
    omega

theorem outside_length (hheads : ∀ frame, frame ∈ children.map (·.name) ↔ below frame added ≠ []) :
    (outside (children.map (·.name)) added).length = added.count [] := by
  rw [List.count, List.countP_eq_length_filter, outside]
  refine congrArg List.length (List.filter_congr fun s hs => ?_)
  cases s with
  | nil => simp
  | cons name rest =>
    have hname : name ∈ children.map (·.name) := (hheads name).mpr (List.ne_nil_of_mem (mem_below.mpr hs))
    simpa using hname

/-- The stacks that go on with none of the children end here. -/
theorem selfValue_count (hnames : (children.map (·.name)).Nodup)
    (hheads : ∀ frame, frame ∈ children.map (·.name) ↔ below frame added ≠ [])
    (hchildren : ∀ child ∈ children, Holds (below child.name added) child) :
    selfValue added.length children = added.count [] := by
  have hadd := childrenValue_add_outside hnames hchildren
  rw [outside_length hheads] at hadd
  rw [selfValue_eq]
  omega

end Children

/-! ## Entries -/

theorem entriesAll_eq_flatMap (children : List StackFrame) (path : List String) :
    entriesAll children path = children.flatMap fun child => entries child path := by
  induction children with
  | nil => rfl
  | cons child children ih => rw [entriesAll, ih, List.flatMap_cons]

/-- The entries of a frame: its stacks, with the path in front. -/
def EntriesOf (added : List (List String)) (f : StackFrame) : Prop :=
  ∀ path, (entries f path).Nodup ∧
    ∀ entry, entry ∈ entries f path ↔
      ∃ s ∈ added, entry = (path ++ f.name :: s, (added.count s : Int))

section Children

variable {added : List (List String)} {children : List StackFrame}

/-- What the children output together: the stacks that go on. -/
theorem mem_entriesAll (hheads : ∀ frame, frame ∈ children.map (·.name) ↔ below frame added ≠ [])
    (hentries : ∀ child ∈ children, EntriesOf (below child.name added) child) (path : List String)
    (entry : List String × Int) :
    entry ∈ entriesAll children path ↔
      ∃ s ∈ added, s ≠ [] ∧ entry = (path ++ s, (added.count s : Int)) := by
  rw [entriesAll_eq_flatMap, List.mem_flatMap]
  constructor
  · intro h
    obtain ⟨child, hchild, hentry⟩ := h
    obtain ⟨s, hs, rfl⟩ := ((hentries child hchild path).2 entry).mp hentry
    rw [count_below]
    exact ⟨child.name :: s, mem_below.mp hs, List.cons_ne_nil _ _, rfl⟩
  · intro h
    obtain ⟨s, hs, hne, rfl⟩ := h
    cases s with
    | nil => exact absurd rfl hne
    | cons name rest =>
      have hrest := mem_below.mpr hs
      obtain ⟨child, hchild, rfl⟩ := List.mem_map.mp ((hheads name).mpr (List.ne_nil_of_mem hrest))
      exact ⟨child, hchild, ((hentries child hchild path).2 _).mpr ⟨rest, hrest, by rw [count_below]⟩⟩

theorem nodup_entriesAll (hnames : (children.map (·.name)).Nodup)
    (hentries : ∀ child ∈ children, EntriesOf (below child.name added) child) (path : List String) :
    (entriesAll children path).Nodup := by
  rw [entriesAll_eq_flatMap, List.nodup_flatMap]
  refine ⟨fun child hchild => (hentries child hchild path).1, ?_⟩
  refine (List.pairwise_map.mp hnames).imp_of_mem fun hchild hchild' hne => ?_
  intro entry hentry hentry'
  -- both have the path up to the child in front
  obtain ⟨s, -, rfl⟩ := ((hentries _ hchild path).2 entry).mp hentry
  obtain ⟨s', -, heq⟩ := ((hentries _ hchild' path).2 _).mp hentry'
  have hpath := List.append_cancel_left (congrArg Prod.fst heq)
  exact hne (List.cons.inj hpath).1

end Children

/-- **What a frame outputs.** -/
theorem entries_iff {added : List (List String)} {f : StackFrame} (h : Holds added f) (hroot : f.name ≠ "root")
    (hadded : ∀ s ∈ added, "root" ∉ s) : EntriesOf added f := by
  induction h with
  | mk hvalue hnames hheads hchildren ih =>
    rename_i added name value children
    have hentries : ∀ child ∈ children, EntriesOf (below child.name added) child := by
      intro child hchild
      have hbelow : below child.name added ≠ [] := (hheads child.name).mp (List.mem_map.mpr ⟨child, hchild, rfl⟩)
      obtain ⟨s, hs⟩ := List.exists_mem_of_ne_nil _ hbelow
      refine ih child hchild ?_ ?_
      · rintro hname
        exact hadded _ (mem_below.mp hs) (hname ▸ List.mem_cons_self)
      · intro s' hs' hmem
        exact hadded _ (mem_below.mp hs') (List.mem_cons_of_mem _ hmem)
    intro path
    rw [StackFrame.name_mk] at hroot
    rw [entries, if_pos hroot, hvalue, selfValue_count hnames hheads hchildren]
    have hmem := mem_entriesAll hheads hentries (path ++ [name])
    refine ⟨?_, ?_⟩
    · refine List.nodup_append.mpr ⟨?_, nodup_entriesAll hnames hentries _, ?_⟩
      · split
        · exact List.nodup_singleton _
        · exact List.nodup_nil
      · intro a ha b hb hab
        split at ha
        · obtain ⟨s, -, hne, rfl⟩ := (hmem b).mp hb
          rw [List.mem_singleton.mp ha] at hab
          have hpath := congrArg Prod.fst hab
          simp only [List.self_eq_append_right] at hpath
          exact hne hpath
        · cases ha
    · intro entry
      rw [List.mem_append, hmem entry, StackFrame.name_mk]
      have hpos : (added.count [] : Int) > 0 ↔ [] ∈ added := by
        rw [← List.count_pos_iff]
        omega
      constructor
      · intro h
        rcases h with hself | ⟨s, hs, -, rfl⟩
        · split at hself
          · rename_i hcount
            exact ⟨[], hpos.mp hcount, List.mem_singleton.mp hself⟩
          · cases hself
        · exact ⟨s, hs, by rw [List.append_assoc]; rfl⟩
      · intro h
        obtain ⟨s, hs, rfl⟩ := h
        by_cases hne : s = []
        · subst hne
          rw [if_pos (hpos.mpr hs)]
          exact .inl (List.mem_singleton.mpr rfl)
        · exact .inr ⟨s, hs, hne, by rw [List.append_assoc]; rfl⟩

/-- A path that is output has no frame named as the root is. -/
theorem entries_path {added : List (List String)} {f : StackFrame} (h : Holds added f) (path : List String)
    {entry : List String × Int} (hentry : entry ∈ entries f path) :
    ∃ r, entry.1 = path ++ r ∧ r ≠ [] ∧ ∀ name ∈ r, name ≠ "root" ∧ (name = f.name ∨ ∃ s ∈ added, name ∈ s) := by
  induction h generalizing path with
  | mk hvalue hnames hheads hchildren ih =>
    rename_i added name value children
    have hall {path : List String} (hentry : entry ∈ entriesAll children path) :
        ∃ r, entry.1 = path ++ r ∧ r ≠ [] ∧ ∀ name ∈ r, name ≠ "root" ∧ ∃ s ∈ added, name ∈ s := by
      rw [entriesAll_eq_flatMap, List.mem_flatMap] at hentry
      obtain ⟨child, hchild, hentry⟩ := hentry
      obtain ⟨r, hr, hne, hnames⟩ := ih child hchild path hentry
      refine ⟨r, hr, hne, fun name hname => ⟨(hnames name hname).1, ?_⟩⟩
      have hbelow : below child.name added ≠ [] := (hheads child.name).mp (List.mem_map.mpr ⟨child, hchild, rfl⟩)
      rcases (hnames name hname).2 with rfl | ⟨s, hs, hmem⟩
      · obtain ⟨s, hs⟩ := List.exists_mem_of_ne_nil _ hbelow
        exact ⟨_, mem_below.mp hs, List.mem_cons_self⟩
      · exact ⟨_, mem_below.mp hs, List.mem_cons_of_mem _ hmem⟩
    rw [entries] at hentry
    by_cases hroot : name ≠ "root"
    · rw [if_pos hroot] at hentry
      rcases List.mem_append.mp hentry with hself | hrest
      · split at hself
        · rw [List.mem_singleton.mp hself]
          exact ⟨[name], rfl, List.cons_ne_nil _ _, fun n hn => by
            rw [List.mem_singleton.mp hn]
            exact ⟨hroot, .inl rfl⟩⟩
        · cases hself
      · obtain ⟨r, hr, -, hnames⟩ := hall hrest
        refine ⟨name :: r, by rw [hr, List.append_assoc]; rfl, List.cons_ne_nil _ _, ?_⟩
        intro n hn
        rcases List.mem_cons.mp hn with rfl | hmem
        · exact ⟨hroot, .inl rfl⟩
        · exact ⟨(hnames n hmem).1, .inr (hnames n hmem).2⟩
    · rw [if_neg hroot] at hentry
      obtain ⟨r, hr, hne, hnames⟩ := hall hentry
      exact ⟨r, hr, hne, fun n hn => ⟨(hnames n hn).1, .inr (hnames n hn).2⟩⟩

/-! ## Lines -/

theorem append_cons_inj_first {α : Type} {a : α} {xs ys zs ws : List α} (hxs : a ∉ xs) (hys : a ∉ ys)
    (h : xs ++ a :: zs = ys ++ a :: ws) : xs = ys ∧ zs = ws := by
  induction xs generalizing ys with
  | nil =>
    cases ys with
    | nil => exact ⟨rfl, (List.cons.inj h).2⟩
    | cons b ys => exact absurd ((List.cons.inj h).1 ▸ List.mem_cons_self) hys
  | cons b xs ih =>
    cases ys with
    | nil => exact absurd ((List.cons.inj h).1 ▸ List.mem_cons_self) hxs
    | cons c ys =>
      obtain ⟨rfl, hrest⟩ := List.cons.inj h
      obtain ⟨rfl, rfl⟩ := ih (fun hb => hxs (List.mem_cons_of_mem _ hb)) (fun hb => hys (List.mem_cons_of_mem _ hb)) hrest
      exact ⟨rfl, rfl⟩

/-- Names without a semicolon can be told apart again. -/
theorem join_inj {p q : List String} (hp : p ≠ []) (hq : q ≠ []) (hpn : ∀ name ∈ p, ';' ∉ name.toList)
    (hqn : ∀ name ∈ q, ';' ∉ name.toList) (h : (join ";" p).toList = (join ";" q).toList) : p = q := by
  have hcons (name : String) {names : List String} (hne : names ≠ []) :
      (join ";" (name :: names)).toList = name.toList ++ ';' :: (join ";" names).toList := by
    cases names with
    | nil => exact absurd rfl hne
    | cons name' names =>
      rw [join, String.toList_append, String.toList_append, List.append_assoc]
      · rfl
      · exact List.cons_ne_nil _ _
  induction p generalizing q with
  | nil => exact absurd rfl hp
  | cons name p ih =>
    cases q with
    | nil => exact absurd rfl hq
    | cons name' q =>
      have hname := hpn name List.mem_cons_self
      have hname' := hqn name' List.mem_cons_self
      by_cases hpnil : p = []
      · subst hpnil
        by_cases hqnil : q = []
        · subst hqnil
          have hsame : name = name' := String.toList_inj.mp h
          rw [hsame]
        · rw [hcons name' hqnil] at h
          exact absurd (h ▸ List.mem_append_right _ List.mem_cons_self) hname
      · by_cases hqnil : q = []
        · subst hqnil
          rw [hcons name hpnil] at h
          exact absurd (h ▸ List.mem_append_right _ List.mem_cons_self) hname'
        · rw [hcons name hpnil, hcons name' hqnil] at h
          obtain ⟨hhead, htail⟩ := append_cons_inj_first hname hname' h
          rw [String.toList_inj.mp hhead, ih hpnil hqnil (fun n hn => hpn n (List.mem_cons_of_mem _ hn))
            (fun n hn => hqn n (List.mem_cons_of_mem _ hn)) htail]

theorem space_notMem_toString (n : Int) : ' ' ∉ (toString n).toList := by
  have hdigits (m : Nat) : ' ' ∉ (Nat.repr m).toList := by
    intro h
    rw [Nat.repr, String.toList_ofList] at h
    exact absurd (Nat.isDigit_of_mem_toDigits (by decide) (by decide) h) (by decide)
  cases n with
  | ofNat m => exact hdigits m
  | negSucc m =>
    show ' ' ∉ ("-" ++ Nat.repr (m + 1)).toList
    rw [String.toList_append, List.mem_append, not_or]
    exact ⟨by decide, hdigits _⟩

/-- A line tells the stack. -/
theorem foldedLine_inj {p q : List String} {m n : Int} (hp : p ≠ []) (hq : q ≠ [])
    (hpn : ∀ name ∈ p, ';' ∉ name.toList) (hqn : ∀ name ∈ q, ';' ∉ name.toList)
    (h : foldedLine p m = foldedLine q n) : p = q := by
  have hlist := congrArg (fun line => line.toList.reverse) h
  simp only [foldedLine, String.toList_append, List.reverse_append, List.append_assoc] at hlist
  -- the number is what is behind the last space
  have hspace : (" " : String).toList.reverse = [' '] := rfl
  rw [hspace, List.singleton_append, List.singleton_append] at hlist
  have hsplit := append_cons_inj_first (by simpa using space_notMem_toString m) (by simpa using space_notMem_toString n)
    hlist
  exact join_inj hp hq hpn hqn (List.reverse_injective hsplit.2)

/-! ## The graph -/

/-- The graph of some stacks. -/
def flameGraphOf (added : List (List String)) : FlameGraph :=
  added.foldl (fun fg stack => fg.addStack stack 1) newFlameGraph

/-- The stacks that have frames. -/
def nonempty (added : List (List String)) : List (List String) := added.filter fun s => s ≠ []

/-- The graph was built from these stacks. -/
structure Built (added : List (List String)) (fg : FlameGraph) : Prop where
  name : fg.rootFrame.name = "root"
  holds : Holds (nonempty added) fg.rootFrame
  total : fg.totalValue = (nonempty added).length

theorem addStack_built {added : List (List String)} {fg : FlameGraph} (h : Built added fg) (s : List String) :
    Built (added ++ [s]) (fg.addStack s 1) := by
  by_cases hs : s = []
  · subst hs
    have hsame : nonempty (added ++ [[]]) = nonempty added := by simp [nonempty]
    refine ⟨h.name, ?_, ?_⟩
    · rw [hsame]
      exact h.holds
    · rw [hsame]
      exact h.total
  · have hmore : nonempty (added ++ [s]) = nonempty added ++ [s] := by simp [nonempty, hs]
    rw [FlameGraph.addStack, if_neg (fun hlen => hs (List.length_eq_zero_iff.mp hlen))]
    refine ⟨?_, ?_, ?_⟩
    · rw [addFrames_name, addValue_name]
      exact h.name
    · rw [hmore]
      exact addFrames_holds s h.holds
    · rw [hmore, List.length_append, List.length_singleton, h.total]
      rfl

theorem flameGraphOf_built (added : List (List String)) : Built added (flameGraphOf added) := by
  have hrun (before : List (List String)) {fg : FlameGraph} (h : Built before fg) :
      Built (before ++ added) (added.foldl (fun fg stack => fg.addStack stack 1) fg) := by
    induction added generalizing before fg with
    | nil => rwa [List.append_nil]
    | cons s added ih =>
      have hstep := ih (before ++ [s]) (addStack_built h s)
      rwa [List.append_assoc] at hstep
  exact hrun [] ⟨rfl, holds_nil "root", rfl⟩

/-- The stacks that are to be output, each once. -/
def distinct (added : List (List String)) : List (List String) := (nonempty added).dedup

/-- What folding is to do. -/
structure Folds (added : List (List String)) (fg : FlameGraph) (foldedStacks : List String) : Prop where
  lines : foldedStacks.Perm ((distinct added).map fun s => foldedLine s (added.count s))
  once : foldedStacks.Nodup
  total : fg.totalValue = ((distinct added).foldr (fun s n => added.count s + n) 0 : Nat)

theorem count_nonempty {added : List (List String)} {s : List String} (hs : s ≠ []) :
    (nonempty added).count s = added.count s := List.count_filter (by simpa using hs)

theorem mem_distinct {added : List (List String)} {s : List String} : s ∈ distinct added ↔ s ∈ added ∧ s ≠ [] := by
  rw [distinct, List.mem_dedup, nonempty, List.mem_filter, decide_eq_true_iff]

/-- The counts add up. -/
theorem total_distinct (added : List (List String)) :
    (distinct added).foldr (fun s n => added.count s + n) 0 = (nonempty added).length := by
  have hcount : (distinct added).foldr (fun s n => added.count s + n) 0
      = (distinct added).foldr (fun s n => (nonempty added).count s + n) 0 :=
    List.foldr_ext _ _ _ fun s hs n => by rw [count_nonempty (mem_distinct.mp hs).2]
  have hinst : (List.instBEq : BEq (List String)) = instBEqOfDecidableEq := lawful_beq_subsingleton _ _
  rw [hcount, hinst, ← List.sum_map_count_dedup_eq_length (nonempty added), List.sum_eq_foldr, List.foldr_map]
  rfl

/-- Without a frame named as the root is, the stacks are output with their
counts. -/
theorem entries_perm {added : List (List String)} (hroot : ∀ s ∈ added, "root" ∉ s) :
    (entries (flameGraphOf added).rootFrame []).Perm
      ((distinct added).map fun s => (s, (added.count s : Int))) := by
  obtain ⟨hname, hholds, -⟩ := flameGraphOf_built added
  generalize (flameGraphOf added).rootFrame = root at hname hholds
  cases hholds with
  | mk hvalue hchildNames hheads hchildren =>
    rename_i name value children
    obtain rfl : name = "root" := hname
    have hroot' {s : List String} (hs : s ∈ nonempty added) : "root" ∉ s := hroot s (List.mem_filter.mp hs).1
    have hentries : ∀ child ∈ children, EntriesOf (below child.name (nonempty added)) child := by
      intro child hchild
      obtain ⟨s, hs⟩ := List.exists_mem_of_ne_nil _
        ((hheads child.name).mp (List.mem_map.mpr ⟨child, hchild, rfl⟩))
      refine entries_iff (hchildren child hchild) ?_ ?_
      · rintro hchildName
        exact hroot' (mem_below.mp hs) (hchildName ▸ List.mem_cons_self)
      · intro s' hs' hmem
        exact hroot' (mem_below.mp hs') (List.mem_cons_of_mem _ hmem)
    have hinj : Function.Injective fun s : List String => (s, (added.count s : Int)) :=
      fun s s' h => congrArg Prod.fst h
    have hdistinct : (distinct added).Nodup := List.nodup_dedup _
    rw [entries, if_neg (not_not.mpr rfl),
      List.perm_ext_iff_of_nodup (nodup_entriesAll hchildNames hentries []) (hdistinct.map hinj)]
    intro entry
    rw [mem_entriesAll hheads hentries, List.mem_map]
    constructor
    · intro h
      obtain ⟨s, hs, hne, rfl⟩ := h
      exact ⟨s, List.mem_dedup.mpr hs, by rw [List.nil_append, count_nonempty hne]⟩
    · intro h
      obtain ⟨s, hs, rfl⟩ := h
      have hne := (mem_distinct.mp hs).2
      exact ⟨s, List.mem_dedup.mp hs, hne, by rw [List.nil_append, count_nonempty hne]⟩

/-- A stack with such a frame has no line. -/
theorem root_not_output {added : List (List String)} (hnames : ∀ s ∈ added, ∀ name ∈ s, ';' ∉ name.toList)
    {s : List String} (hs : s ∈ added) (hroot : "root" ∈ s) (n : Int) :
    foldedLine s n ∉ (entries (flameGraphOf added).rootFrame []).map entryLine := by
  obtain ⟨hname, hholds, -⟩ := flameGraphOf_built added
  intro hline
  obtain ⟨entry, hentry, heq⟩ := List.mem_map.mp hline
  obtain ⟨r, hr, hrne, hrnames⟩ := entries_path hholds [] hentry
  rw [List.nil_append] at hr
  have hsame : entry.1 = s := by
    refine foldedLine_inj (hr ▸ hrne) (List.ne_nil_of_mem hroot) ?_ (hnames s hs) heq
    intro name hmem
    rw [hr] at hmem
    rcases (hrnames name hmem).2 with hroot | ⟨s', hs', hmem'⟩
    · rw [hroot, hname]
      decide
    · exact hnames s' (List.mem_filter.mp hs').1 name hmem'
  rw [← hsame, hr] at hroot
  exact (hrnames "root" hroot).1 rfl

/-- **Folding.** Names without a semicolon come back exactly if and only if no
frame is named as the root is, whatever the growth of arrays. -/
theorem folding_iff (grow : Nat → Nat) {added : List (List String)}
    (hnames : ∀ s ∈ added, ∀ name ∈ s, ';' ∉ name.toList) :
    Folds added (flameGraphOf added) ((flameGraphOf added).generateFoldedStacks grow) ↔
      ∀ s ∈ added, "root" ∉ s := by
  rw [generateFoldedStacks_eq]
  constructor
  · intro hfolds s hs hroot
    refine root_not_output hnames hs hroot (added.count s) (hfolds.lines.mem_iff.mpr ?_)
    exact List.mem_map.mpr ⟨s, mem_distinct.mpr ⟨hs, List.ne_nil_of_mem hroot⟩, rfl⟩
  · intro hroot
    have hlines := (entries_perm hroot).map entryLine
    rw [List.map_map] at hlines
    refine ⟨hlines, hlines.nodup_iff.mpr ?_, ?_⟩
    · have hdistinct : (distinct added).Nodup := List.nodup_dedup _
      refine hdistinct.map_on ?_
      intro s hs s' hs' heq
      have hmem := mem_distinct.mp hs
      have hmem' := mem_distinct.mp hs'
      exact foldedLine_inj hmem.2 hmem'.2 (hnames s hmem.1) (hnames s' hmem'.1) heq
    · rw [(flameGraphOf_built added).total, total_distinct]

/-- Stacks of which one is a part of another. -/
theorem nested_stacks_folded : Folds [["a", "b"], ["a"], ["a", "b"]] (flameGraphOf [["a", "b"], ["a"], ["a", "b"]])
    ((flameGraphOf [["a", "b"], ["a"], ["a", "b"]]).generateFoldedStacks id) :=
  (folding_iff id (by decide)).mpr (by decide)

/-- A stack of one frame with the name of the root is lost. -/
theorem root_stack_lost : (flameGraphOf [["root"]]).generateFoldedStacks id = [] ∧
    ¬ Folds [["root"]] (flameGraphOf [["root"]]) ((flameGraphOf [["root"]]).generateFoldedStacks id) := by
  have hlost : (flameGraphOf [["root"]]).generateFoldedStacks id = [] := by
    rw [generateFoldedStacks_eq]
    rfl
  refine ⟨hlost, fun hfolds => ?_⟩
  have hperm := hfolds.lines
  rw [hlost] at hperm
  have hlength := hperm.length_eq
  rw [List.length_map] at hlength
  revert hlength
  decide

end Bpfsnoop.Trace
