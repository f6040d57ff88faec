import ViewBinding.Script.Run

/-! Reading as looking: what a reading finds depends on the data alone, and all that it leaves
behind are marks, one for each source it read and each computed property it worked out. -/

namespace ViewBinding

/-- What can be seen of a world by reading. -/
structure Sight where
  slot? : Ref .object → String → Option Slot
  value : Ref .cell → Value
  root : Ref .model → Ref .object
  alive : Ref .model → Bool
  model? : String → Option (Ref .model)
  saved? : String → Option Value

def World.sight (w : World) : Sight where
  slot? := w.slot?
  value c := (w.cells.get c).value
  root m := (w.models.get m).data
  alive := w.modelAlive
  model? name := w.names.models.held[name]?
  saved? name := w.names.values[name]?

inductive Mark
  | read (source : Source)
  | computed (p : Computed)
  deriving Inhabited

def Mark.isComputed : Mark → Bool
  | .read _ => false
  | .computed _ => true

@[ext] structure Look (α : Type) where
  run : Option (Except Fault α × List Mark)

namespace Look

variable {α β : Type}

def fail (f : Fault) : Look α := ⟨some (.error f, [])⟩

def unfinished : Look α := ⟨none⟩

def mark (m : Mark) : Look Unit := ⟨some (.ok (), [m])⟩

def ofExcept (r : Except Fault α) : Look α := ⟨some (r, [])⟩

def next (f : α → Look β) : Except Fault α × List Mark → Option (Except Fault β × List Mark)
  | (.error g, ms) => some (.error g, ms)
  | (.ok a, ms) => (f a).run.map fun (r, ns) => (r, ms ++ ns)

instance : Monad Look where
  pure a := ⟨some (.ok a, [])⟩
  bind x f := ⟨x.run.bind (next f)⟩

def untracked (x : Look α) : Look α :=
  ⟨x.run.map fun (r, ms) => (r, ms.filter Mark.isComputed)⟩

@[simp] theorem run_pure (a : α) : (pure a : Look α).run = some (.ok a, []) := rfl

@[simp] theorem run_fail (f : Fault) : (fail f : Look α).run = some (.error f, []) := rfl

@[simp] theorem run_unfinished : (unfinished : Look α).run = none := rfl

@[simp] theorem run_mark (m : Mark) : (mark m).run = some (.ok (), [m]) := rfl

@[simp] theorem run_ofExcept (r : Except Fault α) : (ofExcept r).run = some (r, []) := rfl

@[simp] theorem run_bind (x : Look α) (f : α → Look β) : (x >>= f).run = x.run.bind (next f) := rfl

@[simp] theorem next_error (f : α → Look β) (g : Fault) (ms : List Mark) :
    next f (.error g, ms) = some (.error g, ms) := rfl

@[simp] theorem next_ok (f : α → Look β) (a : α) (ms : List Mark) :
    next f (.ok a, ms) = (f a).run.map fun (r, ns) => (r, ms ++ ns) := rfl

end Look

section

variable (d : Sight) (compute : Computed → Look Value)

def Cell.look (c : Ref .cell) : Look Value := do
  Look.mark (.read (.cell c))
  return d.value c

def Object.look (o : Ref .object) (key : String) : Look Value :=
  match d.slot? o key with
  | some (.cell c) => Cell.look d c
  | some (.computed p) => compute p
  | none => do
    Look.mark (.read (.waiting o key))
    return .null

namespace Path

def lookFrom (p : Path) : List String → Value → Look Value
  | [], v => return v
  | segment :: rest, v => do
    let o ← Look.ofExcept (p.owner v segment)
    lookFrom p rest (← Object.look d compute o segment)

def look (p : Path) (root : Ref .object) : Look Value :=
  p.lookFrom d compute p.segments (.object root)

end Path

def ViewModel.look (m : Ref .model) (path : String) : Look Value := do
  let p ← Look.ofExcept (Path.parse path)
  p.look d compute (d.root m)

def Frame.seek (f : Frame) : Option String → Except Fault (Ref .model)
  | some name => found name
  | none => f.model.elim (found "main") .ok
where
  found (name : String) : Except Fault (Ref .model) :=
    (d.model? name).elim (.error (.noSuch .model)) .ok

def Frame.look (f : Frame) (model : Option String) (path : String) : Look Value := do
  let m ← Look.ofExcept (f.seek d model)
  ViewModel.look d compute m path

def Document.scalar? : Document → Option Value
  | .null => some .null
  | .bool b => some (.bool b)
  | .number n => some (.number n.toFloat)
  | .string s => some (.string s)
  | .array _ => none
  | .object _ => none

mutual

/-- What an expression looks up. Expressions that make something new or ask about the evaluation
itself are none. -/
def Expr.look (f : Frame) : Expr → Look Value
  | .data doc => doc.scalar?.elim Look.unfinished pure
  | .number x => return .number x
  | .get model path => f.look d compute model path
  | .peek model path => (f.look d compute model path).untracked
  | .property object key => do
    let object ← object.look f
    let key ← key.look f
    match object.object? with
    | some o => Object.look d compute o key.text
    | none => Look.fail (.noSuch .object)
  | .root model => do
    let m ← Look.ofExcept (f.seek d (some model))
    return .object (d.root m)
  | .saved name =>
    match d.saved? name with
    | some v => return v
    | none => Look.fail (.noSuch .value)
  | .array _ => Look.unfinished
  | .concat parts => do
    let vs ← Expr.lookAll f parts
    return .string (String.join (vs.map Value.text))
  | .add a b => do
    let x ← a.look f
    let y ← b.look f
    return .number (x.toNumber + y.toNumber)
  | .mul a b => do
    let x ← a.look f
    let y ← b.look f
    return .number (x.toNumber * y.toNumber)
  | .less a b => do
    let x ← a.look f
    let y ← b.look f
    return .bool (x.toNumber < y.toNumber)
  | .same a b => do
    let x ← a.look f
    let y ← b.look f
    return .bool (x.same y)
  | .cond test yes no => do
    let v ← test.look f
    if v.isTrue then yes.look f else no.look f
  | .sort e => do
    let v ← e.look f
    return .string v.sort.name
  | .fail message => Look.fail (.raised message)
  | .tracking => Look.unfinished
  | .registrations => Look.unfinished
  | .argument which => return f.argument which
termination_by structural x => x

def Expr.lookAll (f : Frame) : List Expr → Look (List Value)
  | [] => return []
  | x :: xs => do
    let v ← x.look f
    let vs ← Expr.lookAll f xs
    return v :: vs
termination_by structural xs => xs

end

end

/-- What a computed property is worth, if computed properties are nested less than `fuel` deep. -/
def Sight.compute (d : Sight) : Nat → Computed → Look Value
  | 0, _ => Look.unfinished
  | fuel + 1, p =>
    if d.alive p.model then do
      Look.mark (.computed p)
      p.body.look d (d.compute fuel) { model := p.model }
    else Look.fail .detached

mutual

/-- Whether `P` holds of all parts of an expression that are more than operations on others. -/
def Expr.Each (P : Expr → Prop) : Expr → Prop
  | .property object key => object.Each P ∧ key.Each P
  | .array items => P (.array items) ∧ Expr.EachAll P items
  | .concat parts => Expr.EachAll P parts
  | .add a b => a.Each P ∧ b.Each P
  | .mul a b => a.Each P ∧ b.Each P
  | .less a b => a.Each P ∧ b.Each P
  | .same a b => a.Each P ∧ b.Each P
  | .cond test yes no => test.Each P ∧ yes.Each P ∧ no.Each P
  | .sort e => e.Each P
  | x => P x
termination_by structural x => x

def Expr.EachAll (P : Expr → Prop) : List Expr → Prop
  | [] => True
  | x :: xs => x.Each P ∧ Expr.EachAll P xs
termination_by structural xs => xs

end

section

variable {P Q : Expr → Prop}

mutual

theorem Expr.each_mono (h : ∀ x, P x → Q x) (x : Expr) (hx : x.Each P) : x.Each Q := by
  cases x with
  | property object key => exact ⟨each_mono h object hx.1, each_mono h key hx.2⟩
  | array items => exact ⟨h _ hx.1, eachAll_mono h items hx.2⟩
  | concat parts => exact eachAll_mono h parts hx
  | add a b => exact ⟨each_mono h a hx.1, each_mono h b hx.2⟩
  | mul a b => exact ⟨each_mono h a hx.1, each_mono h b hx.2⟩
  | less a b => exact ⟨each_mono h a hx.1, each_mono h b hx.2⟩
  | same a b => exact ⟨each_mono h a hx.1, each_mono h b hx.2⟩
  | cond test yes no => exact ⟨each_mono h test hx.1, each_mono h yes hx.2.1, each_mono h no hx.2.2⟩
  | sort e => exact each_mono h e hx
  | _ => exact h _ hx
termination_by structural x

theorem Expr.eachAll_mono (h : ∀ x, P x → Q x) (xs : List Expr) (hx : Expr.EachAll P xs) :
    Expr.EachAll Q xs := by
  cases xs with
  | nil => trivial
  | cons x xs => exact ⟨each_mono h x hx.1, eachAll_mono h xs hx.2⟩
termination_by structural xs

end

end

namespace Expr

/-- Whether an expression by itself does not ask about the evaluation it is part of. -/
def Oblivious : Expr → Prop
  | .tracking | .registrations => False
  | _ => True

/-- Whether an expression by itself makes nothing new either. -/
def Firm : Expr → Prop
  | .data doc => doc.scalar?.isSome
  | .array _ | .tracking | .registrations => False
  | _ => True

/-- Whether moreover it reads only as part of its evaluation. -/
def Joined : Expr → Prop
  | .peek _ _ => False
  | x => x.Firm

/-- Whether moreover it reads only from the view-model it belongs to. -/
def Inward : Expr → Prop
  | .get model _ => model = none
  | .root _ | .saved _ => False
  | x => x.Joined

def Heedless (x : Expr) : Prop := x.Each Oblivious

/-- An expression that makes nothing new and does not ask about the evaluation it is part of. -/
def Steady (x : Expr) : Prop := x.Each Firm

/-- A steady expression that reads only as part of its evaluation, from whatever it names. -/
def Attached (x : Expr) : Prop := x.Each Joined

/-- A steady expression that reads only as part of its evaluation, and only from the view-model it
belongs to. -/
def Tracked (x : Expr) : Prop := x.Each Inward

theorem firm_of_joined (x : Expr) (h : x.Joined) : x.Firm := by
  cases x <;> first | exact h | exact False.elim h

theorem joined_of_inward (x : Expr) (h : x.Inward) : x.Joined := by
  cases x <;> first | exact h | exact False.elim h | trivial

theorem Attached.steady {x : Expr} (h : x.Attached) : x.Steady := each_mono firm_of_joined x h

theorem Tracked.attached {x : Expr} (h : x.Tracked) : x.Attached := each_mono joined_of_inward x h

theorem Tracked.steady {x : Expr} (h : x.Tracked) : x.Steady := h.attached.steady

end Expr

def Sight.Steady (d : Sight) : Prop :=
  ∀ o key p, d.slot? o key = some (.computed p) → p.body.Steady

end ViewBinding
