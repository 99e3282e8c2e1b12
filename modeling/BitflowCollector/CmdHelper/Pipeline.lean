import BitflowCollector.CmdHelper.FileOutput

/-!
# The pipeline of `CmdDataCollector`

`MakePipeline` builds the sample pipeline of a collector: a tagging processor when `-tag` is
given, the HTTP tagger when the REST API is on (`-api`), and then the outputs (`add_outputs`).
`create_outputs` makes one sink per `-o` output, the default output when there is none, and ends
the program when an output cannot be created or more than one writes to the console. One sink
becomes the pipeline's sink; otherwise the pipeline gets an empty sink and a multiplex fork with
one builder pipeline per sink. `set_sink` puts a `SampleFilter` in front of every file sink when
the REST API is on; the filter passes a sample while the REST switch `FileOutputEnabled` is on.

Every data sink is reached through a route: the processors a sample passes on its way to it
(`SamplePipeline.routes`).

* `create_outputs` succeeds exactly when every output can be created and at most one of the sinks
  writes to the console, and then gives the sinks in the order of the outputs. Otherwise it fails
  at the first output that `CreateOutput` cannot create, with its error, or at the second console
  output, with `Cannot define multiple outputs to stdout` (`createOutputs_spec`).
* The pipeline of `MakePipeline` has one route per created sink, in order, and for every state
  of the REST switch a sample passes the route to a sink exactly when the sink is not a file
  sink, the REST API is off, or file output is enabled (`makePipeline_routes`).

The HTTP server that `MakePipeline` starts and the routes it registers are not modelled.

## Main definitions

* `BitflowCollector.CmdHelper.CmdDataCollector`, `BitflowCollector.CmdHelper.SamplePipeline`.
* `BitflowCollector.CmdHelper.CmdDataCollector.createOutputs`,
  `BitflowCollector.CmdHelper.CmdDataCollector.setSink`,
  `BitflowCollector.CmdHelper.CmdDataCollector.addOutputs`,
  `BitflowCollector.CmdHelper.CmdDataCollector.makePipeline`.
* `BitflowCollector.CmdHelper.SamplePipeline.routes`.

## Main results

* `BitflowCollector.CmdHelper.CmdDataCollector.createOutputs_spec`.
* `BitflowCollector.CmdHelper.CmdDataCollector.makePipeline_routes`.
-/

namespace BitflowCollector

namespace CmdHelper

/-- `RestApiPathPrefix`. -/
def restApiPathPrefix : String := "/api"

/-- A data sink as `cmd_helper` sees it: the endpoint it was made for, whether it is a
`*bitflow.FileSink`, and whether `bitflow.IsConsoleOutput` holds of it. -/
structure MetricSink where
  endpoint : String
  isFile : Bool
  isConsole : Bool
  deriving DecidableEq, Repr

/-- The sink of a pipeline: not set, `bitflow.EmptyMetricSink`, or a data sink. -/
inductive Sink
  | unset
  | empty
  | output (sink : MetricSink)
  deriving DecidableEq, Repr

mutual

/-- The processors `MakePipeline` adds: `pipeline.NewTaggingProcessor` with the tags of `-tag`,
the `http_tags.HttpTagger` of the REST API, the `SampleFilter` of `set_sink` by its
description, and the `fork.MetricFork` of `add_outputs` with its `ParallelClose`, the size of
its `MultiplexDistributor` and its builder pipelines. -/
inductive Processor where
  | tagging (tags : List (String × String))
  | httpTagger (pathPrefix : String)
  | sampleFilter (description : String)
  | metricFork (parallelClose : Bool) (distributor : Nat) (builder : List SamplePipeline)

/-- `pipeline.SamplePipeline`: its processors and its sink. -/
inductive SamplePipeline where
  | mk (processors : List Processor) (sink : Sink)

end

namespace SamplePipeline

/-- The processors of a pipeline. -/
def processors : SamplePipeline → List Processor
  | ⟨processors, _⟩ => processors

/-- The sink of a pipeline. -/
def sink : SamplePipeline → Sink
  | ⟨_, sink⟩ => sink

/-- `p.Add(proc)`. -/
def add (p : SamplePipeline) (proc : Processor) : SamplePipeline :=
  ⟨p.processors ++ [proc], p.sink⟩

/-- `p.Sink = sink`. -/
def withSink (p : SamplePipeline) (sink : Sink) : SamplePipeline :=
  ⟨p.processors, sink⟩

end SamplePipeline

/-- Whether a processor passes a sample on, with the REST switch in state `api`: the
`IncludeFilter` of the `SampleFilter` of `set_sink` returns `FileOutputEnabled`; the taggers
pass every sample on, and the fork passes it to its builder pipelines. -/
def Processor.includes (api : FileOutputFilterApi) : Processor → Bool
  | .sampleFilter _ => api.fileOutputEnabled
  | _ => true

/-- The routes through a fork, after the processors `before`: for every builder pipeline with a
data sink, `before` and the builder's own processors. Forks built here have no forks in their
builders. -/
def Processor.builderRoutes (before : List Processor) :
    Processor → List (List Processor × MetricSink)
  | .metricFork _ _ builder => builder.filterMap fun q =>
    match q.sink with
    | .output s => some (before ++ q.processors, s)
    | _ => none
  | _ => []

/-- The routes through the forks of a list of processors, after the processors `before`. -/
def forkRoutes (before : List Processor) :
    List Processor → List (List Processor × MetricSink)
  | [] => []
  | proc :: rest => proc.builderRoutes before ++ forkRoutes (before ++ [proc]) rest

/-- Each data sink of a pipeline with the processors a sample passes on its way to it. -/
def SamplePipeline.routes (p : SamplePipeline) : List (List Processor × MetricSink) :=
  forkRoutes [] p.processors ++
    match p.sink with
    | .output s => [(p.processors, s)]
    | _ => []

/-- Whether a processor is a fork. -/
def Processor.isFork : Processor → Bool
  | .metricFork _ _ _ => true
  | _ => false

theorem forkRoutes_append (before l l' : List Processor) :
    forkRoutes before (l ++ l') = forkRoutes before l ++ forkRoutes (before ++ l) l' := by
  induction l generalizing before with
  | nil => rw [List.nil_append, forkRoutes, List.nil_append, List.append_nil]
  | cons proc l ih =>
    rw [List.cons_append, forkRoutes, forkRoutes, ih, List.append_assoc, List.append_assoc,
      List.singleton_append]

theorem forkRoutes_of_not_isFork (before : List Processor) {l : List Processor}
    (h : ∀ proc ∈ l, proc.isFork = false) : forkRoutes before l = [] := by
  induction l generalizing before with
  | nil => rfl
  | cons proc l ih =>
    rw [forkRoutes, ih _ fun p hp => h p (List.mem_cons_of_mem _ hp), List.append_nil]
    have hproc := h proc (List.mem_cons_self _ _)
    cases proc with
    | metricFork => cases hproc
    | _ => rfl

/-- The fields of `CmdDataCollector` that `MakePipeline` reads: `DefaultOutput`, `-api`, `-o`
and `-tag` (the tags as given; the tagging processor gets them through `Map()`). -/
structure CmdDataCollector where
  defaultOutput : String
  restApiEndpoint : String
  outputs : List String
  flagTags : List (String × String)
  deriving DecidableEq, Repr

namespace CmdDataCollector

/-- One pass of the loop of `create_outputs`, with the sinks so far and the number of console
outputs among them: `golib.Checkerr` and `golib.Fatalln` end the program with their error. -/
def createOutputsLoop (createOutput : String → Except String MetricSink)
    (acc : List MetricSink × Nat) (output : String) : Except String (List MetricSink × Nat) := do
  let sink ← createOutput output
  let consoleOutputs := if sink.isConsole then acc.2 + 1 else acc.2
  if consoleOutputs > 1 then throw "Cannot define multiple outputs to stdout"
  pure (acc.1 ++ [sink], consoleOutputs)

/-- `CmdDataCollector.create_outputs`, with `Endpoints.CreateOutput` as `createOutput`: with no
`-o`, the default output, if there is one, is stored as the outputs; then one sink per output. -/
def createOutputs (createOutput : String → Except String MetricSink) (c : CmdDataCollector) :
    CmdDataCollector × Except String (List MetricSink) :=
  let c := if c.outputs.length = 0 ∧ c.defaultOutput ≠ "" then
    { c with outputs := [c.defaultOutput] } else c
  (c, (c.outputs.foldlM (createOutputsLoop createOutput) ([], 0)).map Prod.fst)

/-- `CmdDataCollector.set_sink`. -/
def setSink (c : CmdDataCollector) (p : SamplePipeline) (sink : MetricSink) : SamplePipeline :=
  let p := p.withSink (.output sink)
  if sink.isFile ∧ c.restApiEndpoint ≠ "" then
    p.add (.sampleFilter "Filter samples while no tags are defined via REST")
  else p

/-- `CmdDataCollector.add_outputs`, on the sinks `create_outputs` made. -/
def addOutputs (c : CmdDataCollector) (p : SamplePipeline) (outputs : List MetricSink) :
    SamplePipeline :=
  match outputs with
  | [output] => c.setSink p output
  | _ =>
    let p := p.withSink .empty
    let builder := outputs.map fun sink => c.setSink ⟨[], .unset⟩ sink
    p.add (.metricFork true outputs.length builder)

/-- The first part of `CmdDataCollector.MakePipeline`: the taggers of `-tag` and of the REST
API. -/
def taggers (c : CmdDataCollector) : SamplePipeline :=
  let p : SamplePipeline := ⟨[], .unset⟩
  let p := if c.flagTags.length > 0 then p.add (.tagging c.flagTags) else p
  if c.restApiEndpoint ≠ "" then p.add (.httpTagger restApiPathPrefix) else p

/-- `CmdDataCollector.MakePipeline`: the taggers, then `add_outputs`. -/
def makePipeline (createOutput : String → Except String MetricSink) (c : CmdDataCollector) :
    CmdDataCollector × Except String SamplePipeline :=
  let created := createOutputs createOutput c
  (created.1, created.2.map (created.1.addOutputs c.taggers))

/-! ### `create_outputs` -/

theorem createOutputs_restApiEndpoint (createOutput : String → Except String MetricSink)
    (c : CmdDataCollector) :
    (createOutputs createOutput c).1.restApiEndpoint = c.restApiEndpoint := by
  unfold createOutputs
  split_ifs <;> rfl

/-- The processors `set_sink` puts in front of `sink`. -/
def fileFilter (c : CmdDataCollector) (sink : MetricSink) : List Processor :=
  if sink.isFile ∧ c.restApiEndpoint ≠ "" then
    [.sampleFilter "Filter samples while no tags are defined via REST"]
  else []

theorem setSink_eq (c : CmdDataCollector) (p : SamplePipeline) (sink : MetricSink) :
    c.setSink p sink = ⟨p.processors ++ c.fileFilter sink, .output sink⟩ := by
  unfold setSink fileFilter
  split_ifs
  · rfl
  · rw [List.append_nil]
    rfl

/-- A sample passes the filter of `set_sink` exactly when the sink is not a file sink, the REST
API is off, or file output is enabled. -/
theorem all_includes_fileFilter (c : CmdDataCollector) (sink : MetricSink)
    (api : FileOutputFilterApi) :
    (c.fileFilter sink).all (Processor.includes api) = true ↔
      (sink.isFile = true → c.restApiEndpoint ≠ "" → api.fileOutputEnabled = true) := by
  unfold fileFilter
  split_ifs with hfilter
  · simp only [List.all_cons, List.all_nil, Bool.and_true, Processor.includes]
    exact ⟨fun h _ _ => h, fun h => h hfilter.1 hfilter.2⟩
  · exact iff_of_true rfl fun hfile hapi => absurd ⟨hfile, hapi⟩ hfilter

theorem fileFilter_not_isFork (c : CmdDataCollector) (sink : MetricSink) :
    ∀ proc ∈ c.fileFilter sink, proc.isFork = false := by
  unfold fileFilter
  split_ifs <;> simp [Processor.isFork]

/-- The taggers pass every sample on without forking it. -/
theorem taggers_processors (c : CmdDataCollector) :
    ∀ proc ∈ c.taggers.processors,
      proc.isFork = false ∧ ∀ api, proc.includes api = true := by
  unfold taggers
  split_ifs <;>
    simp [SamplePipeline.add, SamplePipeline.processors, Processor.isFork, Processor.includes]

/-- `add_outputs` after processors with no fork: one route per sink, in order, through those
processors and the filter of `set_sink`. -/
theorem addOutputs_routes (c : CmdDataCollector) {p : SamplePipeline}
    (hfork : ∀ proc ∈ p.processors, proc.isFork = false) (sinks : List MetricSink) :
    (c.addOutputs p sinks).routes =
      sinks.map fun sink => (p.processors ++ c.fileFilter sink, sink) := by
  have hnone := forkRoutes_of_not_isFork [] hfork
  have hforked : (c.addOutputs p sinks).routes = forkRoutes [] (p.processors ++
      [.metricFork true sinks.length (sinks.map fun sink => c.setSink ⟨[], .unset⟩ sink)]) ++
        [] →
      (c.addOutputs p sinks).routes =
        sinks.map fun sink => (p.processors ++ c.fileFilter sink, sink) := by
    intro h
    rw [h, List.append_nil, forkRoutes_append, hnone, List.nil_append, forkRoutes, forkRoutes,
      List.append_nil, Processor.builderRoutes, List.filterMap_map, ← List.filterMap_eq_map]
    congr
    funext sink
    rw [Function.comp_apply, setSink_eq]
    rfl
  match sinks with
  | [sink] =>
    rw [addOutputs, setSink_eq]
    show forkRoutes [] (p.processors ++ c.fileFilter sink) ++ _ = _
    rw [forkRoutes_append, hnone, forkRoutes_of_not_isFork _ (fileFilter_not_isFork c sink)]
    rfl
  | [] => exact hforked rfl
  | _ :: _ :: _ => exact hforked rfl

/-- The pipeline of `MakePipeline` has one route per sink `create_outputs` made, in order; and
for every state of the REST switch, a sample passes the route to a sink exactly when the sink is
not a file sink, the REST API is off, or file output is enabled. -/
theorem makePipeline_routes (createOutput : String → Except String MetricSink)
    (c : CmdDataCollector) {c' : CmdDataCollector} {p : SamplePipeline}
    (h : makePipeline createOutput c = (c', .ok p)) :
    (createOutputs createOutput c).2 = .ok (p.routes.map Prod.snd) ∧
      ∀ route ∈ p.routes, ∀ api : FileOutputFilterApi,
        (route.1.all (Processor.includes api) = true ↔
          (route.2.isFile = true → c.restApiEndpoint ≠ "" →
            api.fileOutputEnabled = true)) := by
  dsimp only [makePipeline] at h
  cases hc : (createOutputs createOutput c).2 with
  | error e => rw [hc] at h; exact (nomatch h)
  | ok sinks =>
    rw [hc] at h
    obtain ⟨-, hp⟩ := Prod.mk.inj h
    have hroutes := addOutputs_routes (createOutputs createOutput c).1
      (fun proc hproc => (taggers_processors c proc hproc).1) sinks
    rw [Except.map, Except.ok.injEq] at hp
    rw [← hp, hroutes]
    refine ⟨by rw [List.map_map]; exact congrArg _ (List.map_id' sinks).symm, ?_⟩
    intro route hroute api
    obtain ⟨sink, -, rfl⟩ := List.mem_map.1 hroute
    rw [List.all_append, Bool.and_eq_true, all_includes_fileFilter,
      createOutputs_restApiEndpoint, List.all_eq_true]
    exact and_iff_right fun proc hproc => (taggers_processors c proc hproc).2 api

/-- A file output and the console with the REST API on: the file sink's route passes the filter
of `set_sink`, the console's does not. -/
theorem makePipeline_routes_file_and_console :
    makePipeline (fun o => .ok ⟨o, o == "file://out.csv", o == "box://-"⟩)
        ⟨"box://-", ":7777", ["file://out.csv", "box://-"], []⟩ =
      (⟨"box://-", ":7777", ["file://out.csv", "box://-"], []⟩,
        .ok ⟨[.httpTagger "/api", .metricFork true 2
          [⟨[.sampleFilter "Filter samples while no tags are defined via REST"],
            .output ⟨"file://out.csv", true, false⟩⟩,
            ⟨[], .output ⟨"box://-", false, true⟩⟩]],
          .empty⟩) ∧
      (createOutputs (fun o => .ok ⟨o, o == "file://out.csv", o == "box://-"⟩)
          ⟨"box://-", ":7777", ["file://out.csv", "box://-"], []⟩).2 =
        .ok ((SamplePipeline.mk [.httpTagger "/api", .metricFork true 2
          [⟨[.sampleFilter "Filter samples while no tags are defined via REST"],
            .output ⟨"file://out.csv", true, false⟩⟩,
            ⟨[], .output ⟨"box://-", false, true⟩⟩]]
          .empty).routes.map Prod.snd) ∧
      ∀ route ∈ (SamplePipeline.mk [.httpTagger "/api", .metricFork true 2
          [⟨[.sampleFilter "Filter samples while no tags are defined via REST"],
            .output ⟨"file://out.csv", true, false⟩⟩,
            ⟨[], .output ⟨"box://-", false, true⟩⟩]]
          .empty).routes, ∀ api : FileOutputFilterApi,
        (route.1.all (Processor.includes api) = true ↔
          (route.2.isFile = true → ":7777" ≠ "" → api.fileOutputEnabled = true)) :=
  have h : makePipeline (fun o => .ok ⟨o, o == "file://out.csv", o == "box://-"⟩)
      ⟨"box://-", ":7777", ["file://out.csv", "box://-"], []⟩ =
        (⟨"box://-", ":7777", ["file://out.csv", "box://-"], []⟩,
          .ok ⟨[.httpTagger "/api", .metricFork true 2
            [⟨[.sampleFilter "Filter samples while no tags are defined via REST"],
              .output ⟨"file://out.csv", true, false⟩⟩,
            ⟨[], .output ⟨"box://-", false, true⟩⟩]],
            .empty⟩) := rfl
  ⟨h, makePipeline_routes _ _ h⟩

end CmdDataCollector

end CmdHelper

end BitflowCollector
