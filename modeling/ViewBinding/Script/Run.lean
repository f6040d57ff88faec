import ViewBinding.Script.Model
import ViewBinding.Script.Subscribe
import ViewBinding.Script.Tree
import ViewBinding.Script.Watch

/-! Running scripts. -/

namespace ViewBinding

def Action.times : Nat → Action Unit → Action Unit
  | 0, _ => return
  | n + 1, x => do
    x
    times n x

variable (e : Engine) (f : Frame)

mutual

def Step.run : Step → Action Answer
  | .build name data computed methods => Script.build e f name data computed methods
  | .mount name target data computed methods settings =>
    Script.mount e f name target data computed methods settings
  | .compile model n settings => Script.compile e f model n settings
  | .dropModel name => Script.dropModel name
  | .alive name => Script.alive name
  | .read model path => Script.read e f model path
  | .write model path value => Script.write e f model path value
  | .call model method kind value => Script.call e f model method kind value
  | .hasMethod model method => Script.hasMethod f model method
  | .snapshot model => Script.snapshot f model
  | .watcherCount model => Script.countWatchers f model
  | .showModel model => Script.showModel f model
  | .render model text delimiters => Script.render e f model text delimiters
  | .watch model id path steps => Script.watch e f model id path steps
  | .watcher model id path steps => Script.watcher e f model id path steps
  | .watcherValue id => Script.watcherValue id
  | .watcherUpdate id => Script.watcherUpdate e id
  | .watcherPath id => Script.watcherPath id
  | .showWatcher id => Script.showWatcher id
  | .dropWatcher id => Script.dropWatcher id
  | .save name value => Script.save e f name value
  | .eval value => return .value (← Script.value e f value)
  | .exported value => Script.exported e f value
  | .showValue value => Script.showValue e f value
  | .property object key => Script.property e f object key
  | .setProperty object key value => Script.setProperty e f object key value
  | .keys object => Script.keys e f object
  | .hasProperty object key => Script.hasProperty e f object key
  | .assign object path value => Script.assign e f object path value
  | .cell id value => Script.cell e f id value
  | .cellOf id object key => Script.cellOf e f id object key
  | .cellValue id => Script.cellValue id
  | .cellSubscribers id => Script.cellSubscribers id
  | .showCell id => Script.showCell id
  | .setCell id value => Script.setCell e f id value
  | .react id steps => Script.react id steps
  | .dropReaction id => Script.dropReaction id
  | .track model reaction paths => Script.track e f model reaction paths
  | .trackCell reaction id => Script.trackCell reaction id
  | .registry id => Script.makeRegistry id
  | .register id reaction => Script.register id reaction
  | .notify id => Script.notify e id
  | .registrySize id => Script.registrySize id
  | .create markup => Script.create markup
  | .input n text => Script.input e n text
  | .dispatch n kind => Script.dispatch e n kind
  | .event n kind value => Script.event e n kind value
  | .node n => Script.report n
  | .nodeCount => Script.nodeCount
  | .query selector => Script.query selector
  | .setText n text => Script.setFace .text n text
  | .setValue n text => Script.setFace .value n text
  | .detach n => Script.detach n
  | .append n children => Script.append n children
  | .log value => do
    Action.emit (.log (← Script.value e f value))
    return .nothing
  | .fail message => throw (.raised message)
  | .cond test yes no => do
    let v ← Script.value e f test
    if v.isTrue then Step.runAll yes else Step.runAll no
    return .nothing
  | .attempt steps => do
    if let some fault ← Action.faultOf (Step.runAll steps) then
      Action.emit (.caught fault)
    return .nothing
  | .loop times steps => do
    Action.times times (Step.runAll steps)
    return .nothing
termination_by structural s => s

def Step.runAll : List Step → Action Unit
  | [] => return
  | s :: rest => do
    let _ ← s.run
    Step.runAll rest
termination_by structural ss => ss

end

/-- The engine whose scripts call each other at most `fuel` levels deep; a call that would go
deeper has no outcome. -/
def Engine.ofFuel : Nat → Engine
  | 0 => { compute := fun _ => Reading.ofAction Action.unfinished
           call := fun _ _ => Action.unfinished }
  | fuel + 1 => { compute := fun p => p.eval (ofFuel fuel).compute
                  call := fun f steps => Step.runAll (ofFuel fuel) f steps }

end ViewBinding
