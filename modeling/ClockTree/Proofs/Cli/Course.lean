import ClockTree.Cli.Folder

/-!
# The course of a job

What a job prints and which files it creates is kept apart from how it ends, so that jobs can be
taken step by step: the course of two jobs in sequence is made of the courses of both. A job that
only reads files and tells leaves nothing behind.
-/
namespace ClockTree.Cli

structure Course (α : Type) where
  result : Except String α
  printed : List String
  created : List (String × String)
  folder : Folder

namespace Course
variable {α β : Type}

def still (f : Folder) (result : Except String α) : Course α := ⟨result, [], [], f⟩

def behind (printed : List String) (created : List (String × String)) (c : Course α) : Course α :=
  { c with printed := printed ++ c.printed, created := created ++ c.created }

def andThen (c : Course α) (next : α → Folder → Course β) : Course β :=
  match c.result with
  | .error message => ⟨.error message, c.printed, c.created, c.folder⟩
  | .ok a => (next a c.folder).behind c.printed c.created

def emitted (c : Course α) : List String := c.printed ++ c.created.map (·.2)

def code (c : Course Nat) : Nat :=
  match c.result with
  | .ok code => code
  | .error _ => 1

theorem andThen_behind (c : Course α) (printed : List String) (created : List (String × String))
    (next : α → Folder → Course β) :
    (c.behind printed created).andThen next = (c.andThen next).behind printed created := by
  obtain ⟨result, _, _, f⟩ := c
  cases result with
  | error message => rfl
  | ok a => simp only [andThen, behind, List.append_assoc]

theorem emitted_behind_still (f : Folder) (result : Except String α) (printed : List String)
    (created : List (String × String)) :
    ((still f result).behind printed created).emitted = printed ++ created.map (·.2) := by
  simp only [emitted, behind, still, List.append_nil]

end Course

namespace Job
variable {α β : Type}

def course (f : Folder) : Job α → Course α
  | .done a => .still f (.ok a)
  | .fail message => .still f (.error message)
  | .out text next => (next.course f).behind [text] []
  | .err _ next => next.course f
  | .find path next => (next (f.read path).isOk).course f
  | .read path next => (next (f.read path)).course f
  | .create path text next => match f.create path text with
    | .ok g => ((next (.ok ())).course g).behind [] [(path, text)]
    | .error reason => (next (.error reason)).course f

theorem over_course (j : Job Nat) (f : Folder) : (j.over f).code = (j.course f).code ∧
    (j.over f).out = String.join (j.course f).printed ∧
      (j.over f).folder = (j.course f).folder := by
  induction j generalizing f with
  | done a => exact ⟨rfl, rfl, rfl⟩
  | fail message => exact ⟨rfl, rfl, rfl⟩
  | out text next ih =>
    obtain ⟨hcode, hout, hfolder⟩ := ih f
    refine ⟨hcode, ?_, hfolder⟩
    change text ++ (next.over f).out = String.join (text :: (next.course f).printed)
    rw [hout, String.join_cons]
  | err text next ih => exact ih f
  | find path next ih => exact ih _ f
  | read path next ih => exact ih _ f
  | create path text next ih =>
    rw [Job.over, Job.course]
    cases f.create path text with
    | ok g => exact ih _ g
    | error reason => exact ih _ f

theorem bind_assoc {γ : Type} (j : Job α) (k : α → Job β) (l : β → Job γ) :
    j >>= k >>= l = j >>= fun a => k a >>= l := by
  change (j.bind k).bind l = j.bind fun a => (k a).bind l
  induction j with
  | done a => rfl
  | fail message => rfl
  | out text next ih => exact congrArg (Job.out text) ih
  | err text next ih => exact congrArg (Job.err text) ih
  | find path next ih => exact congrArg (Job.find path) (funext ih)
  | read path next ih => exact congrArg (Job.read path) (funext ih)
  | create path text next ih => exact congrArg (Job.create path text) (funext ih)

theorem course_bind (j : Job α) (k : α → Job β) (f : Folder) :
    (j >>= k).course f = (j.course f).andThen fun a f => (k a).course f := by
  change (j.bind k).course f = _
  induction j generalizing f with
  | done a => rfl
  | fail message => rfl
  | out text next ih => rw [Job.bind, course, course, ih, Course.andThen_behind]
  | err text next ih => exact ih f
  | find path next ih => exact ih _ f
  | read path next ih => exact ih _ f
  | create path text next ih =>
    rw [Job.bind, course, course]
    cases f.create path text with
    | ok g =>
      dsimp only
      rw [ih, Course.andThen_behind]
    | error reason => exact ih _ f

theorem course_bind_of_still {j : Job α} {a : α} {f : Folder} (h : j.course f = .still f (.ok a))
    (k : α → Job β) : (j >>= k).course f = (k a).course f := by
  rw [course_bind, h]
  rfl

def Passive : Job α → Prop
  | .done _ | .fail _ => True
  | .out _ _ | .create _ _ _ => False
  | .err _ next => next.Passive
  | .find _ next => ∀ b, (next b).Passive
  | .read _ next => ∀ r, (next r).Passive

theorem Passive.bind {j : Job α} {k : α → Job β} (h : j.Passive) (hk : ∀ a, (k a).Passive) :
    (j >>= k).Passive := by
  change (j.bind k).Passive
  induction j with
  | done a => exact hk a
  | fail message => trivial
  | out text next => cases h
  | err text next ih => exact ih h
  | find path next ih => exact fun b => ih b (h b)
  | read path next ih => exact fun r => ih r (h r)
  | create path text next => cases h

theorem Passive.course {j : Job α} (h : j.Passive) (f : Folder) :
    j.course f = .still f (j.course f).result := by
  induction j generalizing f with
  | done a => rfl
  | fail message => rfl
  | out text next => cases h
  | err text next ih => exact ih h f
  | find path next ih => exact ih _ (h _) f
  | read path next ih => exact ih _ (h _) f
  | create path text next => cases h

theorem Passive.course_bind {j : Job α} (h : j.Passive) (k : α → Job β) (f : Folder) :
    (j >>= k).course f = match (j.course f).result with
      | .ok a => (k a).course f
      | .error message => .still f (.error message) := by
  rw [Job.course_bind, h.course f]
  cases (j.course f).result <;> rfl

theorem Passive.result_bind {j : Job α} (h : j.Passive) {k : α → Job β} {f : Folder} {b : β} :
    ((j >>= k).course f).result = .ok b ↔
      ∃ a, (j.course f).result = .ok a ∧ ((k a).course f).result = .ok b := by
  rw [h.course_bind]
  cases (j.course f).result with
  | error message => exact ⟨nofun, nofun⟩
  | ok a =>
    refine ⟨fun hb => ⟨a, rfl, hb⟩, fun ⟨a', ha, hb⟩ => ?_⟩
    obtain rfl := Except.ok.inj ha
    exact hb

theorem orFail_passive {ε : Type} (message : ε → String) (r : Except ε α) :
    (orFail message r).Passive := by
  cases r <;> trivial

end Job
end ClockTree.Cli
