import HeapLisp.Main
import HeapLisp.Proofs.Store.Marking
import HeapLisp.Proofs.Store.Collection
import HeapLisp.Proofs.Machine.Levels
import HeapLisp.Proofs.Matching.Basic
import HeapLisp.Proofs.Matching.Evaluation
import HeapLisp.Proofs.Matching.Arguments
import HeapLisp.Proofs.Matching.Form
import HeapLisp.Proofs.Matching.Session
import HeapLisp.Proofs.Matching.Sequences
import HeapLisp.Proofs.Matching.Special
import HeapLisp.Proofs.Matching.Primitive
import HeapLisp.Proofs.Matching.Run
import HeapLisp.Proofs.Matching.Stores
import HeapLisp.Proofs.Matching.Lookups
import HeapLisp.Proofs.Matching.Copies
import HeapLisp.Proofs.Matching.Printing
import HeapLisp.Proofs.Matching.States
import HeapLisp.Proofs.Host.Collections
import HeapLisp.Proofs.Reader.Locality
import HeapLisp.Proofs.Reader.Renumbering
import HeapLisp.Proofs.Stream.Pending
import HeapLisp.Proofs.Reader.Numerals
import HeapLisp.Proofs.Reader.Radix
import HeapLisp.Proofs.Reader.Tokens
import HeapLisp.Proofs.Reader.Layout
import HeapLisp.Proofs.Reader.Grammar
import HeapLisp.Proofs.Reader.Acceptance
import HeapLisp.Proofs.Reader.Spelling
import HeapLisp.Proofs.Reader.Sources
import HeapLisp.Proofs.Reader.Skipping
import HeapLisp.Proofs.Reader.RoundTrip
import HeapLisp.Proofs.Bytes.Utf8
import HeapLisp.Proofs.Reader.Elision
import HeapLisp.Proofs.Reader.Atoms
import HeapLisp.Proofs.Machine.Endings
import HeapLisp.Proofs.Scope.Chains
import HeapLisp.Proofs.Machine.Lasting
import HeapLisp.Proofs.Session.Restoring
import HeapLisp.Proofs.Matching.Endings
import HeapLisp.Proofs.Reader.Progress
import HeapLisp.Proofs.Reader.Resuming
import HeapLisp.Proofs.Reader.Openings
import HeapLisp.Proofs.Session.Turns
import HeapLisp.Proofs.Machine.Limits
import HeapLisp.Proofs.Store.Isomorphism
import HeapLisp.Proofs.Parameters.Shape
import HeapLisp.Proofs.Parameters.Fitting
import HeapLisp.Proofs.Parameters.Binding
import HeapLisp.Proofs.Matching.Guarding
import HeapLisp.Proofs.Host.Hosting
import HeapLisp.Proofs.Host.Privacy
import HeapLisp.Proofs.Scope.Updates
import HeapLisp.Proofs.Store.Bins
import HeapLisp.Proofs.Sequences.Partition
import HeapLisp.Proofs.Templates.Trees
import HeapLisp.Proofs.Templates.Courses
import HeapLisp.Proofs.Templates.Filling
import HeapLisp.Proofs.Reader.Lines
import HeapLisp.Proofs.Sequences.Bounds
import HeapLisp.Proofs.Sequences.Sweeping
import HeapLisp.Proofs.Symbols.Generating
import HeapLisp.Proofs.Sequences.Contents
import HeapLisp.Proofs.Sequences.Ordering
import HeapLisp.Proofs.Sequences.Joining
import HeapLisp.Proofs.Sequences.Algebra
import HeapLisp.Proofs.Numbers.Arithmetic
import HeapLisp.Proofs.Numbers.Comparisons
import HeapLisp.Proofs.Primitives.Looking
import HeapLisp.Proofs.Primitives.Stopping
import HeapLisp.Proofs.Printer.Scopes
import HeapLisp.Proofs.Bytes.Runs
import HeapLisp.Proofs.Machine.Calling
import HeapLisp.Proofs.Sequences.Merging
import HeapLisp.Proofs.Sequences.Splitting
import HeapLisp.Proofs.Stream.Reading
