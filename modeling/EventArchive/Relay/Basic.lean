import EventArchive.Filter.Basic
import EventArchive.Relay.Gather

/-!
# Relays

A relay checks an event at its gates and hands it to its sinks; it answers a query from its sources.
The first gate that rejects decides, and a rejected event reaches no sink. A sink that fails does
not keep the event from the later ones, and a source that fails is passed over.

Sinks and sources work on a state of type `σ`, which the relay threads through them in order.
-/
namespace EventArchive

/-- What a gate says of an event. -/
inductive Verdict where
  | accept
  | reject (reason : String)
  deriving DecidableEq, Repr

/-- A check that an event has to pass. -/
abbrev Gate := Event → Verdict

/-- A place that accepted events go to. -/
abbrev Sink (σ : Type) := Event → σ → Except RelayError Unit × σ

/-- A place that events are fetched from. -/
abbrev Source (σ : Type) := Filter → σ → Except RelayError (List Event) × σ

/-- Gates, sinks and sources in their order. -/
structure Relay (σ : Type) where
  gates : List Gate
  sinks : List (Sink σ)
  sources : List (Source σ)

namespace Relay
variable {σ : Type}

/-- Check an event at every gate in order; the first rejection decides. -/
def check : List Gate → Event → Verdict
  | [], _ => .accept
  | gate :: gates, e =>
    match gate e with
    | .accept => check gates e
    | .reject reason => .reject reason

/-- Check an event. -/
def verdict (r : Relay σ) (e : Event) : Verdict := check r.gates e

/-- Hand an event to every sink in order; gives the errors of those that failed. -/
def handOut (e : Event) : List (Sink σ) → σ → List RelayError × σ
  | [], s => ([], s)
  | sink :: sinks, s =>
    let (result, s) := sink e s
    let (errors, s) := handOut e sinks s
    match result with
    | .ok () => (errors, s)
    | .error cause => (cause :: errors, s)

/-- Check an event and hand it to the sinks. -/
def publish (r : Relay σ) (e : Event) (s : σ) : Except RelayError Verdict × σ :=
  match r.verdict e with
  | .reject reason => (.ok (.reject reason), s)
  | .accept =>
    let (errors, s) := handOut e r.sinks s
    ((RelayError.ofCauses errors).map fun _ => .accept, s)

/-- Ask every source in order. -/
def askAll (f : Filter) : List (Source σ) → σ → List (Except RelayError (List Event)) × σ
  | [], s => ([], s)
  | source :: sources, s =>
    let (batch, s) := source f s
    let (batches, s) := askAll f sources s
    (batch :: batches, s)

/-- Gather what the sources have for a filter. -/
def query (r : Relay σ) (f : Filter) (s : σ) : List Event × σ :=
  let (batches, s) := askAll f r.sources s
  (Gather.run f.limit batches, s)

end Relay
end EventArchive
