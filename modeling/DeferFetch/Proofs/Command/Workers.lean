/-
# DeferFetch.Proofs.Command.Workers — files that several workers process at once.

The two steps of each file, to examine it and to store its new text, can come in any order with those of
the other files. This does not matter as long as every file with a text to store was found once
(`RunOptions.run_eq_of_schedule`). A file that several paths stand for is found several times, though, and
then two workers may both examine it before either has stored it: each of them reports the annotations that
one of two runs after each other would find replaced (`RunOptions.schedule_counts_twice`).
-/
import Mathlib.Logic.Relation
import Mathlib.Data.List.Basic
import Mathlib.Data.List.Pairwise
import DeferFetch.Command.Run
import DeferFetch.Proofs.Files.Found

namespace DeferFetch

/-! ## Work under way -/

/-- **`Job`** — a file that was found, and how far the work on it has come. -/
inductive Job where
  | waiting (file : FoundFile)
  | examined (file : FoundFile) (report : FileReport)
  | stored (file : FoundFile) (report : FileReport)

namespace Job

/-- The file to work on. -/
def file : Job → FoundFile
  | .waiting f | .examined f _ | .stored f _ => f

/-- The report, once the file is examined. -/
def report? : Job → Option FileReport
  | .waiting _ => none
  | .examined _ report | .stored _ report => some report

/-- **`j.written? checkOnly`** — what was written to the file, if anything was. -/
def written? (checkOnly : Bool) : Job → Option String
  | .stored _ report => if checkOnly then none else report.newText?
  | _ => none

/-- **`Job.apply checkOnly t j`** — the tree with what was written to the file. -/
def apply (checkOnly : Bool) (t : FileTree) (j : Job) : FileTree :=
  match j.written? checkOnly with
  | some s => t.write j.file.names s
  | none => t

end Job

/-- **`r.Step checkOnly`** — one step of some worker: it examines a file as it is in the tree, or it stores
the new text of a file that it has examined. -/
inductive Recipe.Step (r : Recipe) (checkOnly : Bool) : List Job × FileTree → List Job × FileTree → Prop where
  | examine (before : List Job) (file : FoundFile) (after : List Job) (t : FileTree) :
      r.Step checkOnly (before ++ .waiting file :: after, t)
        (before ++ .examined file (r.examine t file) :: after, t)
  | store (before : List Job) (file : FoundFile) (report : FileReport) (after : List Job) (t : FileTree) :
      r.Step checkOnly (before ++ .examined file report :: after, t)
        (before ++ .stored file report :: after, if checkOnly then t else t.store file report)

/-- **`r.Schedule checkOnly t files reports t'`** — the steps for the files can come in an order in which the
workers end with these reports and this tree. -/
def Recipe.Schedule (r : Recipe) (checkOnly : Bool) (t : FileTree) (files : List FoundFile)
    (reports : List FileReport) (t' : FileTree) : Prop :=
  reports.length = files.length ∧
    Relation.ReflTransGen (r.Step checkOnly) (files.map .waiting, t) (List.zipWith .stored files reports, t')

variable {r : Recipe} {checkOnly : Bool} {t : FileTree}

theorem Job.apply_stored (t : FileTree) (file : FoundFile) (report : FileReport) :
    Job.apply checkOnly t (.stored file report) = if checkOnly then t else t.store file report := by
  cases checkOnly <;> rfl

/-! ## Steps for some of the files -/

/-- **`r.Leads checkOnly start stop`** — steps for these jobs lead from `start` to `stop`, whatever other
jobs there are around them. -/
def Recipe.Leads (r : Recipe) (checkOnly : Bool) (start stop : List Job × FileTree) : Prop :=
  ∀ before after, Relation.ReflTransGen (r.Step checkOnly)
    (before ++ start.1 ++ after, start.2) (before ++ stop.1 ++ after, stop.2)

namespace Recipe.Leads

theorem refl (start : List Job × FileTree) : r.Leads checkOnly start start := fun _ _ => .refl

theorem trans {start now stop : List Job × FileTree} (h : r.Leads checkOnly start now)
    (h' : r.Leads checkOnly now stop) : r.Leads checkOnly start stop :=
  fun before after => (h before after).trans (h' before after)

/-- Some jobs come first, and then others. -/
theorem append {jobs jobs' more more' : List Job} {t now t' : FileTree}
    (first : r.Leads checkOnly (jobs, t) (jobs', now)) (second : r.Leads checkOnly (more, now) (more', t')) :
    r.Leads checkOnly (jobs ++ more, t) (jobs' ++ more', t') := by
  intro before after
  have early := first before (more ++ after)
  have late := second (before ++ jobs') after
  simp only [List.append_assoc] at early late ⊢
  exact early.trans late

theorem examine (file : FoundFile) (t : FileTree) :
    r.Leads checkOnly ([.waiting file], t) ([.examined file (r.examine t file)], t) := by
  intro before after
  simp only [List.append_assoc]
  exact .single (.examine before file after t)

theorem store (file : FoundFile) (report : FileReport) (t : FileTree) :
    r.Leads checkOnly ([.examined file report], t)
      ([.stored file report], if checkOnly then t else t.store file report) := by
  intro before after
  simp only [List.append_assoc]
  exact .single (.store before file report after t)

theorem steps {start stop : List Job × FileTree} (h : r.Leads checkOnly start stop) :
    Relation.ReflTransGen (r.Step checkOnly) start stop := by
  have alone := h [] []
  simpa only [List.nil_append, List.append_nil] using alone

end Recipe.Leads

/-! ## One file after the other -/

theorem Recipe.leads_runFiles (t : FileTree) (files : List FoundFile) :
    r.Leads checkOnly (files.map .waiting, t)
      (List.zipWith .stored files (r.runFiles checkOnly t files).1, (r.runFiles checkOnly t files).2) := by
  induction files generalizing t with
  | nil => exact .refl _
  | cons file files ih => exact .append (.trans (.examine file t) (.store file _ t)) (ih _)

theorem Recipe.length_runFiles (t : FileTree) (files : List FoundFile) :
    (r.runFiles checkOnly t files).1.length = files.length := by
  induction files generalizing t with
  | nil => rfl
  | cons file files ih => exact congrArg (· + 1) (ih _)

/-- **To process the files one after the other is a schedule.** -/
theorem Recipe.schedule_runFiles (t : FileTree) (files : List FoundFile) :
    r.Schedule checkOnly t files (r.runFiles checkOnly t files).1 (r.runFiles checkOnly t files).2 :=
  ⟨length_runFiles t files, (leads_runFiles t files).steps⟩

/-! ## Examining everything first -/

theorem Recipe.leads_examine (t : FileTree) (files : List FoundFile) :
    r.Leads checkOnly (files.map .waiting, t) (files.map fun file => .examined file (r.examine t file), t) := by
  induction files with
  | nil => exact .refl _
  | cons file files ih => exact .append (.examine file t) ih

theorem Recipe.leads_store (t : FileTree) (report : FoundFile → FileReport) (files : List FoundFile) :
    ∃ t', r.Leads checkOnly (files.map fun file => .examined file (report file), t)
      (files.map fun file => .stored file (report file), t') := by
  induction files generalizing t with
  | nil => exact ⟨t, .refl _⟩
  | cons file files ih =>
    obtain ⟨t', others⟩ := ih (if checkOnly then t else t.store file (report file))
    exact ⟨t', .append (.store file (report file) t) others⟩

/-- **All files can be examined before anything is stored**, so that each is seen as it was in the
beginning. -/
theorem Recipe.schedule_examine_first (t : FileTree) (files : List FoundFile) :
    ∃ t', r.Schedule checkOnly t files (files.map (r.examine t)) t' := by
  obtain ⟨t', stored⟩ : ∃ t', r.Leads checkOnly (files.map fun file => .examined file (r.examine t file), t)
      (files.map fun file => .stored file (r.examine t file), t') := leads_store t (r.examine t) files
  refine ⟨t', List.length_map .., ?_⟩
  rw [List.zipWith_map_right, List.zipWith_self]
  exact ((leads_examine t files).trans stored).steps

/-! ## Writing to other files -/

theorem FileTree.write_comm {m n : List String} (h : m ≠ n) (t : FileTree) (s s' : String) :
    (t.write m s).write n s' = (t.write n s').write m s := by
  simp only [FileTree.write, List.map_map]
  congr 1
  refine List.map_congr_left fun f _ => ?_
  by_cases hm : f.1 = m
  · have hn : f.1 ≠ n := fun hn => h (hm.symm.trans hn)
    simp [hm, h]
  · by_cases hn : f.1 = n <;> simp [hm, hn, Ne.symm h]

/-- Files of other names are read as before. -/
theorem FileTree.readFound_write {names : List String} {file : FoundFile} (h : names ≠ file.names)
    (t : FileTree) (s : String) : (t.write names s).readFound file = t.readFound file := by
  unfold readFound read
  rw [content?_write, if_neg (Ne.symm h)]

namespace Job

/-- **`a.Apart checkOnly b`** — if both jobs are about one file, nothing was written to it. -/
def Apart (checkOnly : Bool) (a b : Job) : Prop :=
  a.file.names = b.file.names → a.written? checkOnly = none ∧ b.written? checkOnly = none

theorem apply_comm {a b : Job} (h : a.Apart checkOnly b) (t : FileTree) :
    apply checkOnly (apply checkOnly t a) b = apply checkOnly (apply checkOnly t b) a := by
  unfold apply
  cases ha : a.written? checkOnly with
  | none => rfl
  | some s =>
    cases hb : b.written? checkOnly with
    | none => rfl
    | some s' =>
      have names : a.file.names ≠ b.file.names := fun same => by simp [(h same).1] at ha
      exact FileTree.write_comm names t s s'

/-- What was written by one job can as well come last. -/
theorem foldl_apply_comm {j : Job} {jobs : List Job} (h : ∀ a ∈ jobs, j.Apart checkOnly a) (t : FileTree) :
    jobs.foldl (apply checkOnly) (apply checkOnly t j) =
      apply checkOnly (jobs.foldl (apply checkOnly) t) j := by
  induction jobs generalizing t with
  | nil => rfl
  | cons a jobs ih =>
    obtain ⟨ha, hjobs⟩ := List.forall_mem_cons.1 h
    rw [List.foldl_cons, List.foldl_cons, apply_comm ha, ih hjobs]

/-- A file is read as before if nothing was written to it. -/
theorem readFound_foldl {file : FoundFile} {jobs : List Job}
    (h : ∀ j ∈ jobs, j.file.names = file.names → j.written? checkOnly = none) (t : FileTree) :
    (jobs.foldl (apply checkOnly) t).readFound file = t.readFound file := by
  induction jobs generalizing t with
  | nil => rfl
  | cons j jobs ih =>
    obtain ⟨hj, hjobs⟩ := List.forall_mem_cons.1 h
    rw [List.foldl_cons, ih hjobs, apply]
    cases written : j.written? checkOnly with
    | none => rfl
    | some s =>
      have names : j.file.names ≠ file.names := fun same => by simp [hj same] at written
      exact FileTree.readFound_write names t s

end Job

/-! ## What one step preserves -/

/-- **`r.Apart checkOnly t a b`** — if both were found for one file, there is nothing to store in it. -/
def Recipe.Apart (r : Recipe) (checkOnly : Bool) (t : FileTree) (a b : FoundFile) : Prop :=
  a.names = b.names →
    checkOnly = true ∨ (r.examine t a).newText? = none ∧ (r.examine t b).newText? = none

/-- **`r.Faithful t files jobs`** — the jobs are those of the files, and each file that was examined was
examined as it is in the tree `t`. -/
structure Recipe.Faithful (r : Recipe) (t : FileTree) (files : List FoundFile) (jobs : List Job) : Prop where
  files : jobs.map Job.file = files
  reports : ∀ j ∈ jobs, ∀ report ∈ j.report?, report = r.examine t j.file

namespace Recipe

theorem Apart.symm {a b : FoundFile} (h : r.Apart checkOnly t a b) : r.Apart checkOnly t b a :=
  fun same => (h same.symm).imp_right And.symm

variable {files : List FoundFile} {jobs : List Job}

namespace Faithful

/-- Nothing is written to a file for which there is nothing to store. -/
theorem written?_eq_none (h : r.Faithful t files jobs) {j : Job} (hj : j ∈ jobs)
    (idle : checkOnly = true ∨ (r.examine t j.file).newText? = none) : j.written? checkOnly = none := by
  cases j with
  | waiting file => rfl
  | examined file report => rfl
  | stored file report =>
    have same : report = r.examine t file := h.reports _ hj report rfl
    have idle : checkOnly = true ∨ report.newText? = none := same ▸ idle
    obtain rfl | nothing := idle
    · rfl
    · rw [Job.written?, nothing, ite_self]

/-- Each job is apart from the others. -/
theorem apart {before after : List Job} {j : Job} (h : r.Faithful t files (before ++ j :: after))
    (once : files.Pairwise (r.Apart checkOnly t)) : ∀ a ∈ before ++ after, j.Apart checkOnly a := by
  intro a ha same
  rw [← h.files, List.pairwise_map, List.pairwise_middle Apart.symm, List.pairwise_cons] at once
  have idle := once.1 a ha same
  have member : a ∈ before ++ j :: after := by
    simp only [List.mem_append, List.mem_cons] at ha ⊢
    exact ha.imp_right .inr
  exact ⟨h.written?_eq_none (by simp) (idle.imp_right And.left),
    h.written?_eq_none member (idle.imp_right And.right)⟩

/-- A job that has come further is still faithful if its report is. -/
theorem update {before after : List Job} {j : Job} (h : r.Faithful t files (before ++ j :: after)) {j' : Job}
    (file : j'.file = j.file) (report : ∀ report ∈ j'.report?, report = r.examine t j'.file) :
    r.Faithful t files (before ++ j' :: after) where
  files := by rw [← h.files, List.map_append, List.map_append, List.map_cons, List.map_cons, file]
  reports := by
    intro a ha
    obtain ha | rfl | ha := by simpa only [List.mem_append, List.mem_cons] using ha
    · exact h.reports a (List.mem_append_left _ ha)
    · exact report
    · exact h.reports a (List.mem_append_right _ (List.mem_cons_of_mem _ ha))

end Faithful

/-- **`r.Reached checkOnly t files state`** — what was written for the files is all that has changed in the
tree `t`, in which they were examined. -/
structure Reached (r : Recipe) (checkOnly : Bool) (t : FileTree) (files : List FoundFile)
    (state : List Job × FileTree) : Prop where
  jobs : r.Faithful t files state.1
  tree : state.2 = state.1.foldl (Job.apply checkOnly) t

/-- **One step**, of whichever worker. -/
theorem Step.reached (once : files.Pairwise (r.Apart checkOnly t)) {state state' : List Job × FileTree}
    (step : r.Step checkOnly state state') (h : r.Reached checkOnly t files state) :
    r.Reached checkOnly t files state' := by
  obtain ⟨faithful, tree⟩ := h
  cases step with
  | examine before file after now =>
    obtain rfl : now = (before ++ .waiting file :: after).foldl (Job.apply checkOnly) t := tree
    -- nobody has written to a file that is yet to be examined
    have unwritten : ∀ j ∈ before ++ .waiting file :: after,
        j.file.names = file.names → j.written? checkOnly = none := by
      intro j hj same
      obtain hj | rfl | hj := by simpa only [List.mem_append, List.mem_cons] using hj
      · exact (faithful.apart once j (List.mem_append_left _ hj) same.symm).2
      · rfl
      · exact (faithful.apart once j (List.mem_append_right _ hj) same.symm).2
    have seen : r.examine ((before ++ .waiting file :: after).foldl (Job.apply checkOnly) t) file =
        r.examine t file := by
      rw [Recipe.examine, Job.readFound_foldl unwritten]
      rfl
    refine ⟨faithful.update rfl fun report hr => ?_, ?_⟩
    · exact (Option.mem_some.1 hr).symm.trans seen
    · simp only [List.foldl_append, List.foldl_cons]
      rfl
  | store before file report after now =>
    obtain rfl : now = (before ++ .examined file report :: after).foldl (Job.apply checkOnly) t := tree
    have further : r.Faithful t files (before ++ .stored file report :: after) :=
      faithful.update rfl (faithful.reports (.examined file report) (by simp))
    refine ⟨further, ?_⟩
    -- the text is written last, but in the list there are jobs after this one
    have last := Job.foldl_apply_comm (fun a ha => further.apart once a (List.mem_append_right _ ha))
      (before.foldl (Job.apply checkOnly) t)
    rw [← Job.apply_stored, List.foldl_append, List.foldl_cons, List.foldl_append, List.foldl_cons, last]
    rfl

/-! ## All steps -/

theorem reached_start (t : FileTree) (files : List FoundFile) :
    r.Reached checkOnly t files (files.map .waiting, t) where
  jobs :=
    { files := by
        rw [List.map_map]
        exact List.map_id files
      reports := by
        intro j hj report hr
        obtain ⟨file, -, rfl⟩ := List.mem_map.1 hj
        cases hr }
  tree := by
    rw [List.foldl_map]
    exact (List.foldl_fixed files).symm

theorem Faithful.reports_eq {files : List FoundFile} {reports : List FileReport}
    (length : reports.length = files.length)
    (h : ∀ j ∈ List.zipWith Job.stored files reports, ∀ report ∈ j.report?, report = r.examine t j.file) :
    reports = files.map (r.examine t) := by
  induction files generalizing reports with
  | nil => exact List.length_eq_zero_iff.1 length
  | cons file files ih =>
    cases reports with
    | nil => cases length
    | cons report reports =>
      obtain ⟨first, others⟩ := List.forall_mem_cons.1 h
      have same : report = r.examine t file := first report rfl
      rw [List.map_cons, ← same, ← ih (Nat.succ.inj length) others]

/-- **Reports are on the files as they were** in the beginning, and the new texts are written to them, in
whatever order the workers take their steps. -/
theorem Schedule.unique (once : files.Pairwise (r.Apart checkOnly t)) {reports : List FileReport}
    {t' : FileTree} (h : r.Schedule checkOnly t files reports t') :
    (reports, t') = (files.map (r.examine t),
      (List.zipWith .stored files (files.map (r.examine t))).foldl (Job.apply checkOnly) t) := by
  obtain ⟨length, steps⟩ := h
  have reached : ∀ {state}, Relation.ReflTransGen (r.Step checkOnly) (files.map .waiting, t) state →
      r.Reached checkOnly t files state := by
    intro state steps
    induction steps with
    | refl => exact reached_start t files
    | tail _ step ih => exact step.reached once ih
  obtain ⟨faithful, tree⟩ := reached steps
  obtain rfl := Faithful.reports_eq length faithful.reports
  exact congrArg _ tree

end Recipe

/-- **`o.NoneShared t`** — no two of the paths have a file in common. -/
def RunOptions.NoneShared (o : RunOptions) (t : FileTree) : Prop :=
  o.paths.Pairwise fun p q =>
    ∀ a ∈ t.found o.extensions p, ∀ b ∈ t.found o.extensions q, a.names ≠ b.names

/-- If the paths have no file in common, each file is found once. -/
theorem RunOptions.pairwise_apart (o : RunOptions) {t : FileTree} (sound : t.Sound)
    (distinct : o.NoneShared t) : (o.search t).1.Pairwise (o.recipe.Apart o.checkOnly t) :=
  (sound.searchAll_once o.extensions distinct).imp fun names same => absurd same names

/-- **The order of the steps does not matter** if every file with a text to store was found once: then the
reports and the tree in the end are those of a run that processes the files one after the other. Such a run
is a schedule itself. And every file was found once if no two of the paths have a file in common. -/
theorem RunOptions.run_eq_of_schedule (o : RunOptions) (t : FileTree) :
    o.recipe.Schedule o.checkOnly t (o.search t).1 (o.run t).1.reports (o.run t).2 ∧
    ((o.search t).1.Pairwise (o.recipe.Apart o.checkOnly t) → ∀ reports t',
      o.recipe.Schedule o.checkOnly t (o.search t).1 reports t' →
        o.run t = ({ checkOnly := o.checkOnly, reports, searchErrors := (o.search t).2 }, t')) ∧
    (t.Sound → o.NoneShared t → (o.search t).1.Pairwise (o.recipe.Apart o.checkOnly t)) := by
  have inOrder : o.recipe.Schedule o.checkOnly t (o.search t).1 (o.run t).1.reports (o.run t).2 :=
    Recipe.schedule_runFiles t (o.search t).1
  refine ⟨inOrder, fun once reports t' schedule => ?_, o.pairwise_apart⟩
  obtain ⟨rfl, rfl⟩ := Prod.mk.inj ((schedule.unique once).trans (inOrder.unique once).symm)
  rfl

/-- Two files that change, both examined before either is stored. -/
theorem RunOptions.run_eq_of_schedule_two_files :
    let o : RunOptions := ⟨false, ["java"], .jakarta, none, ["A.java", "B.java"]⟩
    let text := FileContent.text "import jakarta.persistence.*;\nclass A \x7b @OneToOne B b; \x7d\n"
    let t := ((FileTree.startingAt []).addFile ["A.java"] text).addFile ["B.java"] text
    t.Sound ∧ o.NoneShared t ∧
      ∃ t', o.recipe.Schedule o.checkOnly t (o.search t).1 ((o.search t).1.map (o.recipe.examine t)) t' ∧
        (o.run t).1.changedPaths = ["A.java", "B.java"] ∧
        o.run t = ({ checkOnly := o.checkOnly
                     reports := (o.search t).1.map (o.recipe.examine t)
                     searchErrors := (o.search t).2 }, t') := by
  intro o text t
  have sound : t.Sound := ⟨by decide +kernel, by decide +kernel⟩
  have distinct : o.NoneShared t := by
    have foundA : t.found o.extensions "A.java" = [⟨"A.java", ["A.java"]⟩] := by decide +kernel
    have foundB : t.found o.extensions "B.java" = [⟨"B.java", ["B.java"]⟩] := by decide +kernel
    simp [NoneShared, o, foundA, foundB]
  obtain ⟨t', schedule⟩ := @Recipe.schedule_examine_first o.recipe o.checkOnly t (o.search t).1
  obtain ⟨-, unique, apart⟩ := o.run_eq_of_schedule t
  exact ⟨sound, distinct, t', schedule, by decide +kernel, unique (apart sound distinct) _ _ schedule⟩

/-- **A file that two paths stand for can be counted twice**: if both workers examine it before either has
stored it, the summary has each annotation and the file twice. -/
theorem RunOptions.schedule_counts_twice :
    let o : RunOptions := ⟨false, ["java"], .jakarta, none, ["A.java", "A.java"]⟩
    let t := (FileTree.startingAt []).addFile ["A.java"]
      (.text "import jakarta.persistence.ManyToOne;\nclass A \x7b\n  @ManyToOne B b;\n\x7d\n")
    ∃ reports t', o.recipe.Schedule o.checkOnly t (o.search t).1 reports t' ∧
      let summary : Summary := { checkOnly := o.checkOnly, reports, searchErrors := (o.search t).2 }
      summary.siteCount = 2 ∧ (o.run t).1.siteCount = 1 ∧
        summary.changedPaths = ["A.java", "A.java"] ∧ (o.run t).1.changedPaths = ["A.java"] := by
  intro o t
  obtain ⟨t', schedule⟩ := @Recipe.schedule_examine_first o.recipe o.checkOnly t (o.search t).1
  exact ⟨_, t', schedule, by decide +kernel⟩

end DeferFetch
