import Wiring.SortedMap
import Wiring.Json.Tree
import Wiring.Text.Quoted
import Wiring.Json.Printer
import Wiring.Json.Reader
import Wiring.Json.Record
import Wiring.Plan
import Wiring.Error
import Wiring.Instant
import Wiring.Format.Plan
import Wiring.Class
import Wiring.Interpreter
import Wiring.Introspector
import Wiring.Compile.Pass
import Wiring.Runner
import Wiring.Module
import Wiring.TwoPhase
import Wiring.Disk.Basic
import Wiring.Cache
import Wiring.Settings.Toml
import Wiring.Settings.Basic
import Wiring.Settings.Environment
import Wiring.Settings.Loader
import Wiring.Log
import Wiring.CommandLine.Reader
import Wiring.CommandLine.Run
import Wiring.Session
import Wiring.Main
import Wiring.Proofs.SortedMap
import Wiring.Proofs.Module
import Wiring.Proofs.Act
import Wiring.Proofs.Store
import Wiring.Proofs.Compile.Plan
import Wiring.Proofs.Compile.Pass
import Wiring.Proofs.MemoryStore
import Wiring.Proofs.Runtime
import Wiring.Proofs.Dialogue
import Wiring.Proofs.Dialogue.Alike
import Wiring.Proofs.Dialogue.Interpreter
import Wiring.Proofs.Dialogue.Runner
import Wiring.Proofs.Discovery
import Wiring.Proofs.Finding
import Wiring.Proofs.WriteOnce.Runner
import Wiring.Proofs.WriteOnce
import Wiring.Proofs.Interpreter
import Wiring.Proofs.Compile.Later
import Wiring.Proofs.Compile.Writing
import Wiring.Proofs.Staleness
import Wiring.Proofs.Shape
import Wiring.Proofs.Purity
import Wiring.Proofs.Lockstep
import Wiring.Proofs.Runner
import Wiring.Proofs.Precompilation
import Wiring.Proofs.Draft
import Wiring.Proofs.Settling
import Wiring.Proofs.Settling.Chart
import Wiring.Proofs.Settling.Interpreter
import Wiring.Proofs.Deletion
import Wiring.Proofs.Follow
import Wiring.Proofs.Follow.Deliver
import Wiring.Proofs.Follow.Interpreter
import Wiring.Proofs.Follow.Runner
import Wiring.Proofs.Agreement
import Wiring.Proofs.CallSites
import Wiring.Proofs.History
import Wiring.Proofs.Coherence.Runner
import Wiring.Proofs.Coherence
import Wiring.Proofs.Dialogue.Protocol
import Wiring.Proofs.Dialogue.Identities
import Wiring.Proofs.Account
import Wiring.Proofs.Account.Interpreter
import Wiring.Proofs.Account.Runner
import Wiring.Proofs.Closure
import Wiring.Proofs.Account.Identities
import Wiring.Proofs.Uniqueness
import Wiring.Proofs.Token
import Wiring.Proofs.Machine
import Wiring.Proofs.Termination
import Wiring.Proofs.Cycles
import Wiring.Proofs.Text.Digits
import Wiring.Proofs.Text.Delimited
import Wiring.Proofs.Listing
import Wiring.Proofs.Json.Reader
import Wiring.Proofs.Format.Recipe
import Wiring.Proofs.Format.Plan
import Wiring.Proofs.Instant
import Wiring.Proofs.Format.Binding
import Wiring.Proofs.Disk.Path
import Wiring.Proofs.Disk.Directory
import Wiring.Proofs.Disk.Replace
import Wiring.Proofs.Cache.Name
import Wiring.Proofs.Cache.Contents
import Wiring.Proofs.Cache.Writes
import Wiring.Proofs.Disk.Frame
import Wiring.Proofs.Cache.Orderly
import Wiring.Proofs.Snapshot
import Wiring.Proofs.Growth
import Wiring.Proofs.Blueprint
import Wiring.Proofs.Journal
import Wiring.Proofs.Journal.Identities
import Wiring.Proofs.Journal.Interpreter
import Wiring.Proofs.Journal.Runner
import Wiring.Proofs.Journal.Seen
import Wiring.Proofs.Wholeness
import Wiring.Proofs.Compile.Exact
import Wiring.Proofs.Order
import Wiring.Proofs.Restoring
import Wiring.Proofs.Skipping
import Wiring.Proofs.Moments
import Wiring.Proofs.Stack
import Wiring.Proofs.Class
import Wiring.Proofs.Guard
import Wiring.Proofs.Demands
import Wiring.Proofs.Registered
import Wiring.Proofs.Registered.Runner
import Wiring.Proofs.Disk.Standing
import Wiring.Proofs.Refusal
import Wiring.Proofs.Cache.Refusal
import Wiring.Proofs.Disk.Whole
import Wiring.Proofs.Cache.Whole
import Wiring.Proofs.Settings.Quoted
import Wiring.Proofs.Settings.Document
import Wiring.Proofs.Settings.Tree
import Wiring.Proofs.Settings.Record
import Wiring.Proofs.Settings.Loader
