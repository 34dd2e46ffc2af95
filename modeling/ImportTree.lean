import ImportTree.Markup.Sample
import ImportTree.Markup.Structure
import ImportTree.Script.Declarations
import ImportTree.Metadata.Registry
import ImportTree.Metadata.Binding
import ImportTree.Report.Advice
import ImportTree.Address.Resolve
import ImportTree.Session.Analysis
import ImportTree.Loader.Directory
import ImportTree.Loader.Remote
import ImportTree.Loader.Routing
import ImportTree.Toml.Document
import ImportTree.Settings.File
import ImportTree.Tree.Drawing
import ImportTree.Tree.Json
import ImportTree.Tree.Listing
import ImportTree.Cli.Arguments
import ImportTree.Cli.Run
import ImportTree.Cli.Usage
import ImportTree.Main
import ImportTree.Proofs.Session.Table
import ImportTree.Proofs.Session.Extraction
import ImportTree.Proofs.Session.Growth
import ImportTree.Proofs.Session.Change
import ImportTree.Proofs.Session.Polls
import ImportTree.Proofs.Session.Await
import ImportTree.Proofs.Tree.Expansion
import ImportTree.Proofs.Session.Walks
import ImportTree.Proofs.Session.Breadth
import ImportTree.Proofs.Session.Outside
import ImportTree.Proofs.Analysis.Steps
import ImportTree.Proofs.Tree.Entries
import ImportTree.Proofs.Analysis.Shape
import ImportTree.Proofs.Session.Handles
import ImportTree.Proofs.Session.Resolver
import ImportTree.Proofs.Session.Identity
import ImportTree.Proofs.Metadata.Registry
import ImportTree.Proofs.Session.Booking
import ImportTree.Proofs.Site.Basic
import ImportTree.Proofs.Site.Scripts
import ImportTree.Proofs.Site.Faithful
import ImportTree.Proofs.Session.Bounds
import ImportTree.Proofs.Site.Sound
import ImportTree.Proofs.Site.Schedule
import ImportTree.Proofs.Site.Agreement
import ImportTree.Proofs.Site.Justified
import ImportTree.Proofs.Session.Prompt
import ImportTree.Proofs.Session.Repeats
import ImportTree.Proofs.Analysis.Stability
import ImportTree.Proofs.Session.Truthful
import ImportTree.Proofs.Site.Names
import ImportTree.Proofs.Markup.Search
import ImportTree.Proofs.Markup.Replacement
import ImportTree.Proofs.Markup.Words
import ImportTree.Proofs.Markup.Written
import ImportTree.Proofs.Markup.Tags
import ImportTree.Proofs.Markup.Recovery
import ImportTree.Proofs.Markup.Concatenation
import ImportTree.Proofs.Markup.Places
import ImportTree.Proofs.Script.Balance
import ImportTree.Proofs.Script.Written
import ImportTree.Proofs.Script.Masking
import ImportTree.Proofs.Script.Source
import ImportTree.Proofs.Script.Searching
import ImportTree.Proofs.Script.Forms
import ImportTree.Proofs.Script.Registrations
import ImportTree.Proofs.Script.Declared
import ImportTree.Proofs.Files.Steps
import ImportTree.Proofs.Files.Addresses
import ImportTree.Proofs.Files.Names
import ImportTree.Proofs.Files.Confinement
import ImportTree.Proofs.Files.Spellings
import ImportTree.Proofs.Session.Requests
import ImportTree.Proofs.Metadata.Binding
import ImportTree.Proofs.Analysis.Templates
import ImportTree.Proofs.Analysis.Limit
import ImportTree.Proofs.Tree.Drawing
import ImportTree.Proofs.Analysis.Requests
import ImportTree.Proofs.Session.Background
import ImportTree.Proofs.Session.Trails
import ImportTree.Proofs.Site.Ends
import ImportTree.Proofs.Session.Complete
import ImportTree.Proofs.Metadata.Entering
import ImportTree.Proofs.Session.Contents
import ImportTree.Proofs.Session.InOrder
import ImportTree.Proofs.Session.Arrival
import ImportTree.Proofs.Session.Rounds
import ImportTree.Proofs.Session.Inlining
import ImportTree.Proofs.Metadata.History
import ImportTree.Proofs.Session.Extracts
import ImportTree.Proofs.Session.Inner
import ImportTree.Proofs.Session.Lone
import ImportTree.Proofs.Analysis.Loaderless
import ImportTree.Proofs.Session.Abandoned
import ImportTree.Proofs.Analysis.Dropped
import ImportTree.Proofs.Files.Chains
import ImportTree.Proofs.Address.Fragments
import ImportTree.Proofs.Markup.Quoting
import ImportTree.Proofs.Script.Lines
import ImportTree.Proofs.Text.Utf8
import ImportTree.Proofs.Script.Bytewise
import ImportTree.Proofs.Script.Positions
import ImportTree.Proofs.Scan.Run
import ImportTree.Proofs.Scan.Offsets
import ImportTree.Proofs.Scan.Attributes
import ImportTree.Proofs.Scan.Document
import ImportTree.Proofs.Scan.Lexemes
import ImportTree.Proofs.Scan.Script
