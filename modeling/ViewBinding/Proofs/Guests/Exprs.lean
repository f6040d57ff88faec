import ViewBinding.Proofs.Guests.Readings

/-! Expressions and computed properties in two runs. -/

namespace ViewBinding

variable {G : List String} {p q : Pairing} {w w' : World} {f f' : Frame}

theorem Frame.Twin.argument (hf : f.Twin p f') (which : Argument) :
    (f.argument which).Twin p (f'.argument which) := by
  obtain ⟨m, c, e⟩ := f
  obtain ⟨m', c', e'⟩ := f'
  obtain rfl : e = e' := hf.event
  have hc : Option.Rel (Change.Twin p) c c' := hf.change
  cases which with
  | new =>
    cases hc with
    | some h => exact h.new
    | none => exact .null
  | old =>
    cases hc with
    | some h => exact h.old
    | none => exact .null
  | kind =>
    cases e with
    | some event => exact .string event.kind
    | none => exact .null
  | value =>
    rcases e with _ | ⟨_, _ | text⟩
    · exact .null
    · exact .null
    · exact .string text

theorem Value.Twins.map_text {us vs : List Value} (h : Value.Twins p us vs) :
    us.map Value.text = vs.map Value.text := by
  rw [← Value.texts_eq_map, ← Value.texts_eq_map, h.texts]

namespace Reading

section

variable {L : Likeness} {compute compute' : Computed → Reading Value}

theorem Parallel.operands {g : Value → Value → Value} {x x' y y' : Reading Value}
    (hx : Parallel L p x x' Value.Twin) (hy : ∀ q, p ≤ q → Parallel L q y y' Value.Twin)
    (hg : ∀ q, q.OneToOne → ∀ u u' v v' : Value, u.Twin q u' → v.Twin q v' → g u v = g u' v')
    (hs : ∀ q u v, (g u v).Twin q (g u v)) :
    Parallel L p (do let u ← x; let v ← y; return g u v) (do let u ← x'; let v ← y'; return g u v)
      Value.Twin := by
  refine .bind hx fun q hq u u' hu => .bind (hy q hq) fun l hl v v' hv => ?_
  refine .pureAt fun k w w' hk hw => ?_
  rw [← hg k (L.sameData hw).fits.oneToOne u u' v v' (hu.mono (hl.trans hk)) (hv.mono hk)]
  exact hs k u v

mutual

theorem Parallel.expr (x : Expr) (hx : L.heeds ∨ x.Heedless) {p : Pairing} {f f' : Frame}
    (hc : ComputesParallel L p compute compute') (hf : f.Twin p f') :
    Parallel L p (x.eval compute f) (x.eval compute' f') Value.Twin := by
  cases x with
  | data d => exact .modifyGet fun q w w' _ hw =>
      let ⟨l, hl, hv, hw'⟩ := L.observe d hw
      ⟨l, hl, hw', hv⟩
  | number x => exact .pure fun _ _ => .number x
  | get model path => exact .frame hc hf model path
  | peek model path => exact .ofOnce (.frame hc hf model path)
  | property object key =>
    refine .bind (Parallel.expr object (hx.imp_right And.left) hc hf) fun q hq u u' hu => ?_
    refine .bind (Parallel.expr key (hx.imp_right And.right) (hc.mono hq) (hf.mono hq))
      fun l hl k k' hk => ?_
    rw [hk.text]
    cases hu.mono hl with
    | object ho => exact .object ((hc.mono hq).mono hl) ho k'.text
    | _ => exact .throw _
  | root model =>
    refine .getWorld fun q w w' hq hw => ?_
    refine .bind (R := fun _ m m' => m = m' ∧ q.pair m m)
      (.ofExcept fun _ _ => (hf.mono hq).findModel (L.sameData hw) (some model)) ?_
    rintro l hl m _ ⟨rfl, hm⟩
    exact .pure fun k hk => .object (hk.pair (hl.pair ((L.sameData hw).models m m hm)))
  | saved name =>
    refine .getWorld fun q w w' hq hw => ?_
    have hv := (L.sameData hw).saved name
    generalize w.names.values[name]? = a at hv ⊢
    generalize w'.names.values[name]? = b at hv ⊢
    cases hv with
    | none => exact .throw _
    | some hv => exact .pure fun _ hl => hv.mono hl
  -- Both runs make an array of their own, and the two become counterparts.
  | array items =>
    refine .bind (Parallel.exprs items (hx.imp_right And.right) hc hf) fun q hq vs vs' hvs =>
      .modifyGet fun l w w' hl hw => ?_
    refine ⟨_, l.le_join _ _, L.addArray vs vs' hw, .array ?_ ((hvs.mono hl).mono (l.le_join _ _))⟩
    exact Pairing.pair_join.2 (.inr ⟨rfl, rfl⟩)
  | concat parts =>
    refine .bind (Parallel.exprs parts hx hc hf) fun q hq vs vs' hvs => ?_
    rw [hvs.map_text]
    exact .pure fun _ _ => .string _
  | add a b =>
    refine .operands (Parallel.expr a (hx.imp_right And.left) hc hf)
      (fun q hq => Parallel.expr b (hx.imp_right And.right) (hc.mono hq) (hf.mono hq))
      (fun _ _ _ _ _ _ hu hv => ?_) fun _ _ _ => .number _
    rw [hu.toNumber, hv.toNumber]
  | mul a b =>
    refine .operands (Parallel.expr a (hx.imp_right And.left) hc hf)
      (fun q hq => Parallel.expr b (hx.imp_right And.right) (hc.mono hq) (hf.mono hq))
      (fun _ _ _ _ _ _ hu hv => ?_) fun _ _ _ => .number _
    rw [hu.toNumber, hv.toNumber]
  | less a b =>
    refine .operands (Parallel.expr a (hx.imp_right And.left) hc hf)
      (fun q hq => Parallel.expr b (hx.imp_right And.right) (hc.mono hq) (hf.mono hq))
      (fun _ _ _ _ _ _ hu hv => ?_) fun _ _ _ => .bool _
    rw [hu.toNumber, hv.toNumber]
  | same a b =>
    refine .operands (Parallel.expr a (hx.imp_right And.left) hc hf)
      (fun q hq => Parallel.expr b (hx.imp_right And.right) (hc.mono hq) (hf.mono hq))
      (fun _ hp _ _ _ _ hu hv => ?_) fun _ _ _ => .bool _
    rw [hu.same hp hv]
  | cond test yes no =>
    refine .bind (Parallel.expr test (hx.imp_right And.left) hc hf) fun q hq v v' hv => ?_
    rw [hv.isTrue]
    exact .ite Iff.rfl
      (Parallel.expr yes (hx.imp_right fun h => h.2.1) (hc.mono hq) (hf.mono hq))
      (Parallel.expr no (hx.imp_right fun h => h.2.2) (hc.mono hq) (hf.mono hq))
  | sort e =>
    refine .bind (Parallel.expr e hx hc hf) fun q hq v v' hv => ?_
    rw [hv.sort]
    exact .pure fun _ _ => .string _
  | fail message => exact .throw _
  | tracking =>
    refine .getEvaluation fun q e e' _ he => ?_
    rw [(L.heeded (hx.resolve_right id) he).1]
    exact .pure fun _ _ => .bool _
  | registrations =>
    refine .getEvaluation fun q e e' _ he => ?_
    rw [(L.heeded (hx.resolve_right id) he).2]
    exact .pure fun _ _ => .number _
  | argument which => exact .pure fun _ hq => (hf.argument which).mono hq
termination_by structural x

theorem Parallel.exprs (xs : List Expr) (hx : L.heeds ∨ Expr.EachAll Expr.Oblivious xs)
    {p : Pairing} {f f' : Frame} (hc : ComputesParallel L p compute compute') (hf : f.Twin p f') :
    Parallel L p (Expr.evalAll compute f xs) (Expr.evalAll compute' f' xs) Value.Twins := by
  cases xs with
  | nil => exact .pure fun _ _ => .nil
  | cons x xs =>
    refine .bind (Parallel.expr x (hx.imp_right And.left) hc hf) fun q hq v v' hv => ?_
    refine .bind (Parallel.exprs xs (hx.imp_right And.right) (hc.mono hq) (hf.mono hq))
      fun l hl vs vs' hvs => ?_
    exact .pure fun _ hk => .cons (hv.mono (hl.trans hk)) (hvs.mono hk)
termination_by structural xs

end

theorem ComputesParallel.eval (hc : ComputesParallel L p compute compute') :
    ComputesParallel L p (Computed.eval compute) (Computed.eval compute') := by
  refine fun c hh => .getWorld fun q w w' hq hw => ?_
  rw [← (L.sameData hw).alive c.model]
  cases ha : w.modelAlive c.model with
  | false => exact .throw _
  | true =>
    have hm : q.pair c.model c.model := (L.sameData hw).living _ ha
    refine .bind (.computed c) fun l hl _ _ _ => ?_
    exact .expr c.body hh ((hc.mono hq).mono hl)
      ⟨rfl, fun m h => by cases h; exact hl.pair hm, .none, rfl⟩

mutual

theorem Aside.expr (hc : ∀ c, Aside G (compute c)) (f : Frame) :
    ∀ x : Expr, Aside G (x.eval compute f)
  | .data d => .modifyGet fun _ _ _ hw => hw.observeLeft d
  | .get model path => .frame hc f model path
  | .peek model path => .ofOnce (.frame hc f model path)
  | .property object key =>
    .bind (Aside.expr hc f object) fun u => .bind (Aside.expr hc f key) fun k => by
      cases u.object? with
      | none => exact .throw _
      | some o => exact Aside.object hc o k.text
  | .root model => .getWorld fun _ => .bind (.ofExcept _) fun _ => .pure _
  | .saved name => .getWorld fun w => by
      cases w.names.values[name]? with
      | none => exact .throw _
      | some v => exact .pure v
  | .array items =>
    .bind (Aside.exprs hc f items) fun vs => .modifyGet fun _ _ _ hw => hw.addArrayLeft vs
  | .concat parts => .bind (Aside.exprs hc f parts) fun _ => .pure _
  | .add a b => .bind (Aside.expr hc f a) fun _ => .bind (Aside.expr hc f b) fun _ => .pure _
  | .mul a b => .bind (Aside.expr hc f a) fun _ => .bind (Aside.expr hc f b) fun _ => .pure _
  | .less a b => .bind (Aside.expr hc f a) fun _ => .bind (Aside.expr hc f b) fun _ => .pure _
  | .same a b => .bind (Aside.expr hc f a) fun _ => .bind (Aside.expr hc f b) fun _ => .pure _
  | .cond test yes no =>
    .bind (Aside.expr hc f test) fun _ => .ite (Aside.expr hc f yes) (Aside.expr hc f no)
  | .sort e => .bind (Aside.expr hc f e) fun _ => .pure _
  | .fail _ => .throw _
  | .tracking => .getEvaluation fun _ => .pure _
  | .registrations => .getEvaluation fun _ => .pure _
  | .number _ => .pure _
  | .argument _ => .pure _

theorem Aside.exprs (hc : ∀ c, Aside G (compute c)) (f : Frame) :
    ∀ xs : List Expr, Aside G (Expr.evalAll compute f xs)
  | [] => .pure _
  | x :: xs =>
    .bind (Aside.expr hc f x) fun _ => .bind (Aside.exprs hc f xs) fun _ => .pure _

end

theorem Aside.computed (hc : ∀ c, Aside G (compute c)) (c : Computed) :
    Aside G (c.eval compute) := by
  have hb : Aside G (Reading.ofAction (Action.tell (.computed c)) >>= fun _ =>
      c.body.eval compute { model := c.model }) :=
    .bind (.ofAction fun p w w' hw r v h => by cases h; exact hw.tellLeft rfl) fun _ =>
      .expr hc _ c.body
  exact .getWorld fun w => .ite hb (.bind (.throw _) fun _ => hb)

end

theorem ComputesParallel.ofFuel (L : Likeness) (p : Pairing) (n : Nat) :
    ComputesParallel L p (Engine.ofFuel n).compute (Engine.ofFuel n).compute := by
  induction n generalizing p with
  | zero => exact fun _ _ _ _ _ _ _ _ _ _ _ _ _ h => nomatch h
  | succ n ih => exact (ih p).eval

theorem Aside.compute (n : Nat) (c : Computed) : Aside G ((Engine.ofFuel n).compute c) := by
  induction n generalizing c with
  | zero => exact fun _ _ _ _ _ _ _ _ _ h => nomatch h
  | succ n ih => exact .computed ih c

end Reading

end ViewBinding
